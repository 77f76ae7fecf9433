import SchnorrMpc.Mpc.Progress

/-!
# Runs of a key generation

The steps of a key generation, of its leader and of its followers. Only the
step of the group key touches the key store.
-/
namespace SchnorrMpc

open Lib

variable {cfg : Config} {ctx : MpcContext} {leader : Bool} {i : Nat} {choice : Choice}
  {u v : ContextRun}

/-- The kinds of the steps, which differ in the first two. -/
def gpkKinds (leader : Bool) : List StepKind :=
  (if leader then [.request .mpcGPKLeader, .ready] else [.ackMpc .mpcGPKPeer, .getReady])
    ++ [.skShare, .gpk [.mpcPublicShare] [.publicKeyResult], .ackGPK]

/-- The context of a key generation before its run. -/
structure GpkStart (leader : Bool) (ctx : MpcContext) : Prop where
  kinds : (ctx.mpcSteps.map Step.body).map StepBody.kind = gpkKinds leader
  quiet : ∀ step ∈ ctx.mpcSteps, step.msgChan = []
  freshKey : ∀ ptStep, StepBody.gpk ptStep ∈ ctx.mpcSteps.map Step.body →
    ptStep = .create [.mpcPublicShare] [.publicKeyResult]
  freshAck : ∀ ack, StepBody.ackGPK ack ∈ ctx.mpcSteps.map Step.body → ack = .create
  store : ctx.mpcResult = .create

theorem createContext_gpkStart {mpcID : Nat} {peers : List PeerInfo}
    (created : createContext cfg (if leader then .mpcGPKLeader else .mpcGPKPeer) mpcID peers [] =
      .ok ctx) :
    GpkStart leader ctx := by
  obtain ⟨poly, -, rfl⟩ := createContext_gpkSteps leader created
  constructor
  · cases leader <;> rfl
  · cases leader <;> simp [gpkSteps, gpkStep, Step.create]
  · cases leader <;> simp [gpkSteps, gpkStep, Step.create]
  · cases leader <;> simp [gpkSteps, gpkStep, Step.create]
  · rfl

theorem gpkKinds_index {kind : StepKind} (found : (gpkKinds leader)[i]? = some kind) :
    (∀ preValueKeys resultKeys, kind = .gpk preValueKeys resultKeys → i = 3) ∧
      ∀ messageType, kind = .request messageType → i = 0 := by
  cases leader
  all_goals
    match i with
    | 0 | 1 | 2 | 3 | 4 => cases found; simp
    | i + 5 => cases found

/-! ### The key store -/

/-- Step `i` is finished, or nothing more will be. -/
def Stage.Settled (i : Nat) (stage : Stage) : Prop :=
  stage.Past i ∨ (∃ error, stage = .failed error) ∨ stage = .panicked

namespace View

variable {kenv : KeyEnv} {cfg : Config} {arrives : NodeID → MpcMessage → Prop} {v v' : View}

theorem Moves.settled (moves : Moves kenv cfg arrives v v') (settled : v.stage.Settled i) :
    v'.stage.Settled i := by
  cases moves with
  | handle => exact settled
  | init j body body' random peers out isStage isBody admissible inits creates =>
    rw [isStage] at settled
    exact settled.imp id (by simp)
  | mail j item rest isStage =>
    rw [isStage] at settled
    exact settled.imp id (by simp)
  | finish j body body' choice store srv isStage isBody iterates finishes =>
    rw [isStage] at settled
    exact settled.imp Nat.lt_succ_of_lt (by simp)
  | fail error => exact .inr (.inl ⟨error, rfl⟩)
  | complete => exact .inl trivial
  | crash => exact .inr (.inr rfl)

theorem Moves.srv_cases (moves : Moves kenv cfg arrives v v')
    (kinds : v.bodies.map StepBody.kind = gpkKinds leader) :
    v'.srv = v.srv ∨ v.stage = .during 3 [] ∧ v'.stage = .before 4 := by
  cases moves with
  | finish i body body' choice store srv isStage isBody iterates finishes =>
    obtain ⟨between, finished, ⟨⟨ptStep, rfl⟩, -⟩ | ⟨-, -, same⟩⟩ := StepBody.finish_cases finishes
    · have found : (gpkKinds leader)[i]? = some body.kind := by
        rw [← kinds, List.getElem?_map, isBody]
        rfl
      obtain rfl := (gpkKinds_index found).1 _ _ (StepBody.finish_kind finishes).symm
      exact .inr ⟨isStage, rfl⟩
    · exact .inl same
  | handle | init | mail | fail | complete | crash => exact .inl rfl

section

variable (reaches : Reaches kenv cfg arrives v v')
  (kinds : v.bodies.map StepBody.kind = gpkKinds leader)

include reaches kinds

theorem Reaches.settled (settled : v.stage.Settled 3) : v'.stage.Settled 3 ∧ v'.srv = v.srv := by
  induction reaches with
  | refl => exact ⟨settled, rfl⟩
  | tail path last ih =>
    obtain ⟨still, same⟩ := ih
    refine ⟨last.settled still, ?_⟩
    rcases last.srv_cases ((Reaches.kinds path).trans kinds) with unchanged | ⟨isStage, -⟩
    · exact unchanged.trans same
    · rw [isStage] at still
      simp [Stage.Settled, Stage.Past] at still

theorem Reaches.srv_unsettled : v'.stage.Settled 3 ∨ v'.srv = v.srv := by
  induction reaches with
  | refl => exact .inr rfl
  | tail path last ih =>
    rcases ih with settled | same
    · exact .inl (last.settled settled)
    · rcases last.srv_cases ((Reaches.kinds path).trans kinds) with unchanged | ⟨-, isStage⟩
      · exact .inr (unchanged.trans same)
      · rw [isStage]
        exact .inl (.inl (by decide : 3 < 4))

end

end View

/-- What finishing the step of the group key has done. -/
structure KeyFinished (kenv : KeyEnv) (cfg : Config) (u v : ContextRun) (choice : Choice)
    (pointer : MpcPointGenerator) (order : Assoc Nat (Int × Int)) (gpk : Int × Int)
    (share : Int) (keyStore : KeyStore) (encoded : Bytes) : Prop where
  body : (u.ctx.mpcSteps.map Step.body)[3]? = some (.gpk ⟨[pointer], [.publicKeyResult]⟩)
  isOrder : choice.orders.points = [order]
  perm : order.Perm pointer.message
  calculated : pointer.calculateResult kenv.toEnv cfg order = .ok { pointer with result := gpk }
  privateShare : ∃ rest, u.ctx.mpcResult.result .mpcPrivateShare = some (share :: rest)
  written : u.srv.keyStore.newStoremanAccount kenv (gpk.1.natAbs, gpk.2.natAbs) share
    (u.ctx.peers.map PeerInfo.seed) u.srv.password choice.draw = .ok keyStore
  encodes : fromECDSAPub (some ((gpk.1.natAbs : Int), (gpk.2.natAbs : Int))) = .ok encoded
  srv : v.srv = { u.srv with keyStore }
  store : v.ctx.mpcResult = (u.ctx.mpcResult.setValue .publicKeyResult [gpk.1, gpk.2]).setByteValue
    .mpcContextResult encoded

section Runs

variable {kenv : KeyEnv} {cfg : Config} {arrives : NodeID → MpcMessage → Prop}
  {srv : MpcDistributor} {leader : Bool} {ctx : MpcContext} (start : GpkStart leader ctx)
  {run : ContextRun}

include start

theorem GpkStart.initially :
    Inbox ((ContextRun.start srv ctx).view.Heard arrives) (ContextRun.start srv ctx).ctx.mpcSteps :=
  inbox_of_empty start.quiet

theorem GpkStart.path (reaches : ContextRun.Reaches kenv cfg arrives (.start srv ctx) run) :
    View.Reaches kenv cfg arrives (ContextRun.start srv ctx).view run.view ∧
      run.view.bodies.map StepBody.kind = gpkKinds leader := by
  obtain ⟨-, path⟩ := ContextRun.Reaches.refines reaches start.initially
  exact ⟨path, (View.Reaches.kinds path).trans start.kinds⟩

theorem GpkStart.finishes_key
    (finishes : ContextRun.Finishes kenv cfg arrives (.start srv ctx) run 3 choice u v) :
    ∃ pointer order gpk share keyStore encoded,
      KeyFinished kenv cfg u v choice pointer order gpk share keyStore encoded := by
  obtain ⟨step, body, store, srv', found, iterates, finished, isNext⟩ := finishes.body
  obtain ⟨path, kinds⟩ := start.path finishes.before
  have isKind : step.body.kind = .gpk [.mpcPublicShare] [.publicKeyResult] := by
    have fourth := congrArg (fun kinds => kinds[3]?) kinds
    cases leader <;> simpa [ContextRun.view, found, gpkKinds] using fourth
  obtain ⟨pointer, isBody, -⟩ := StepBody.eq_gpk isKind
  rw [isBody] at finished iterates
  obtain ⟨between, computed, stored⟩ := StepBody.finish_cases finished
  obtain ⟨order, pointer', isOrder, perm, calculated, rfl, rfl⟩ :=
    StepBody.finishStep_gpk iterates computed
  have created := stored.resolve_right fun other => other.1 _ rfl
  obtain ⟨point, privateShare, x, y, share, keyStore, encoded, isPoint, isX, isY, isShare, first,
    written, encodes, rfl, rfl⟩ := MpcDistributor.createKeystore_eq_ok created.2
  obtain rfl : [pointer'.result.1, pointer'.result.2] = point := by simpa using isPoint
  cases isX
  cases isY
  have onlyResult := (MpcPointGenerator.calculateResult_eq_ok calculated).2.2
  refine ⟨pointer, order, pointer'.result, share, keyStore, encoded, ?_⟩
  subst isNext
  constructor
  · simp [found, isBody]
  · exact isOrder
  · exact perm
  · rw [← onlyResult]
    exact calculated
  · obtain ⟨rest, rfl⟩ : ∃ rest, privateShare = share :: rest := by
      cases privateShare with
      | nil => cases first
      | cons head rest =>
        cases first
        exact ⟨rest, rfl⟩
    exact ⟨rest, by simpa using isShare⟩
  · exact written
  · exact encodes
  · rfl
  · rfl

/-- The key store after a run is the old one, or the one with the key file that finishing the step
of the group key has written. -/
theorem GpkStart.srv_cases (reaches : ContextRun.Reaches kenv cfg arrives (.start srv ctx) run) :
    run.srv = srv ∨ ∃ choice u v,
      ContextRun.Finishes kenv cfg arrives (.start srv ctx) run 3 choice u v := by
  induction reaches with
  | refl => exact .inl rfl
  | @tail s t before last ih =>
    rcases ih with same | ⟨choice, u, v, finishes⟩
    · obtain ⟨inbox, -⟩ := ContextRun.Reaches.refines before start.initially
      obtain ⟨-, kinds⟩ := start.path before
      obtain ⟨action, permits, stepped⟩ := id last
      rcases ContextRun.step_cases stepped with ⟨choice, i, rfl, isPc, finishes, isNext⟩ | calm
      · rcases (last.refines inbox).moves with sameView | move
        · exact .inl ((congrArg View.srv sameView).trans same)
        · rcases move.srv_cases kinds with unchanged | ⟨isStage, -⟩
          · exact .inl (unchanged.trans same)
          · obtain rfl : i = 3 := by simpa [ContextRun.view, isPc, Pc.stage] using isStage
            exact .inr ⟨choice, s, t, before, isPc, permits, finishes, isNext, .refl⟩
      · exact .inl (calm.srv.trans same)
    · exact .inr ⟨choice, u, v, { finishes with after := finishes.after.tail last }⟩

theorem GpkStart.finishes_srv
    (finishes : ContextRun.Finishes kenv cfg arrives (.start srv ctx) run 3 choice u v) :
    u.srv = srv ∧ run.srv = v.srv := by
  obtain ⟨path, -⟩ := start.path finishes.before
  obtain ⟨-, kinds⟩ := start.path finishes.toNext
  constructor
  · refine (View.Reaches.srv_unsettled path start.kinds).resolve_left fun settled => ?_
    simp [ContextRun.view, finishes.isPc, Pc.stage, Stage.Settled, Stage.Past] at settled
  · obtain ⟨sound, -⟩ := ContextRun.Reaches.refines finishes.toNext start.initially
    obtain ⟨-, after⟩ := ContextRun.Reaches.refines finishes.after sound
    have settled : v.view.stage.Settled 3 := by
      simp [ContextRun.view, finishes.isNext, Pc.stage, Stage.Settled, Stage.Past]
    exact (View.Reaches.settled after kinds settled).2

end Runs
end SchnorrMpc
