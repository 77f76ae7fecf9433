import SchnorrMpc.Mpc.Follow
import SchnorrMpc.Mpc.Progress
import SchnorrMpc.Properties.HonestSigning
import SchnorrMpc.Properties.Requests

/-!
# Signatures that are handed out

Whatever arrives while a leader runs a signing, the bytes it hands out are a
signature that it has verified itself, for the requested data and the key it
has loaded.
-/
namespace SchnorrMpc

open Lib S256

/-! ### The steps of a signing -/

def signKinds : List StepKind :=
  [.request .mpcSignLeader, .ready, .rskShare, .r [.rMpcPublicShare] [.rPublicKeyResult],
    .s [.mpcPrivateShare] [.mpcS], .ackRS]

/-! ### The scalar of a signature -/

theorem lagrange_range {f x : List Int} {degree result : Int}
    (returned : lagrange f x degree = .ok result) : 0 ≤ result ∧ result < N := by
  obtain ⟨b, -, folded⟩ := (Outcome.bind_eq_ok_iff ..).mp returned
  refine Outcome.foldlM_invariant (fun s => 0 ≤ s ∧ s < (N : Int)) ?_ ⟨le_rfl, by decide⟩ folded
  intro acc next i _ _ round
  simp only [Outcome.bind_eq_ok_iff] at round
  obtain ⟨_, -, _, -, same⟩ := round
  cases same
  exact ⟨Int.emod_nonneg _ (by decide), Int.emod_lt_of_pos _ (by decide)⟩

theorem MpcSGenerator.calculateResult_range {cfg : Config} {msg result : MpcSGenerator}
    {order : Assoc Nat Int} (returned : msg.calculateResult cfg order = .ok result) :
    0 ≤ result.result ∧ result.result < N := by
  unfold MpcSGenerator.calculateResult at returned
  simp only at returned
  split at returned
  · cases returned
  · obtain ⟨value, interpolated, built⟩ := (Outcome.bind_eq_ok_iff ..).mp returned
    cases built
    exact lagrange_range interpolated

/-- The scalar in the store, and the one that is to be verified, are reduced. -/
structure ScalarsReduced (v : View) : Prop where
  stored : ∀ value, v.store.result .mpcS = some value → ∃ s, value = [s] ∧ 0 ≤ s ∧ s < N
  verified : ∀ mars, StepBody.ackRS mars ∈ v.bodies → 0 ≤ mars.mpcS ∧ mars.mpcS < (N : Int)

section Reduced

variable {kenv : KeyEnv} {cfg : Config} {arrives : NodeID → MpcMessage → Prop} {v v' : View}

private theorem ackRS_of_set {bodies : List StepBody} {i : Nat} {body body' : StepBody}
    (isBody : bodies[i]? = some body) (sameKind : body'.kind = body.kind) {P : MpcAckRSStep → Prop}
    (before : ∀ mars, .ackRS mars ∈ bodies → P mars)
    (after : ∀ mars mars', body = .ackRS mars → P mars → body' = .ackRS mars' → P mars') :
    ∀ mars, .ackRS mars ∈ bodies.set i body' → P mars := by
  intro mars' member
  rcases List.mem_or_eq_of_mem_set member with old | rfl
  · exact before mars' old
  · obtain ⟨mars, rfl⟩ := StepBody.eq_ackRS sameKind.symm
    exact after mars mars' rfl (before mars (List.mem_of_getElem? isBody)) rfl

theorem ScalarsReduced.step (reduced : ScalarsReduced v)
    (kinds : v.bodies.map StepBody.kind = signKinds) (moves : View.Moves kenv cfg arrives v v') :
    ScalarsReduced v' := by
  cases moves with
  | handle i sender msg body body' accepted isBody heard isStep handled =>
    refine ⟨reduced.stored, ackRS_of_set isBody (StepBody.handleMessage_kind handled)
      reduced.verified ?_⟩
    rintro mars mars' rfl range rfl
    simp only [StepBody.handleMessage, MpcAckRSStep.handleMessage] at handled
    split at handled
    · cases handled
      exact range
    · cases handled
      exact range
  -- ackRS takes the scalar from the store
  | init i body body' random peers out isStage isBody admissible inits creates =>
    refine ⟨reduced.stored, ackRS_of_set isBody (StepBody.initStep_kind inits) reduced.verified ?_⟩
    rintro mars mars' rfl - rfl
    simp only [StepBody.initStep, MpcAckRSStep.initStep, Option.some.injEq, Outcome.bind_eq_ok_iff,
      Outcome.index_eq_ok_iff, BaseMpcResult.getValue_eq_ok_iff] at inits
    obtain ⟨_, ⟨_, -, _, -, _, -, sValue, isValue, mpcS, first, built⟩, same⟩ := inits
    cases built
    cases same
    obtain ⟨s, rfl, range⟩ := reduced.stored sValue isValue
    cases first
    exact range
  | finish i body body' choice store srv isStage isBody iterates finishes =>
    obtain ⟨between, finished, stored⟩ := StepBody.finish_cases finishes
    have sameKind := StepBody.finish_kind finishes
    have isKind : body.kind ∈ signKinds :=
      kinds ▸ List.mem_map_of_mem (List.mem_of_getElem? isBody)
    -- signing creates no keystore
    obtain ⟨rfl, rfl⟩ : store = between ∧ srv = v.srv := by
      rcases stored with ⟨⟨ptStep, rfl⟩, -⟩ | ⟨-, same⟩
      · rw [← sameKind] at isKind
        simp [signKinds, StepBody.kind] at isKind
      · exact same
    refine ⟨fun value isValue => ?_, ackRS_of_set isBody sameKind reduced.verified ?_⟩
    · by_cases isScalar : body.kind = .s [.mpcPrivateShare] [.mpcS]
      · obtain ⟨msg, rfl⟩ := StepBody.eq_s isScalar
        obtain ⟨order, msg', calculated, -, rfl⟩ := StepBody.finishStep_s finished
        -- the interpolation reduces the sum modulo N
        have range := MpcSGenerator.calculateResult_range calculated
        have same : value = [msg'.result] := by simpa using isValue.symm
        exact ⟨_, same, range⟩
      · have unwritten : ResultKey.mpcS ∉ body.kind.writes := by
          simp only [signKinds, List.mem_cons, List.not_mem_nil, or_false] at isKind
          rcases isKind with same | same | same | same | same | same
          all_goals first
            | exact absurd same isScalar
            | rw [same]; decide
        rw [(StepBody.finishStep_frame finished).1 _ unwritten] at isValue
        exact reduced.stored value isValue
    · rintro mars mars' rfl range rfl
      simp only [StepBody.finishStep, Outcome.bind_eq_ok_iff] at finished
      obtain ⟨_, -, same⟩ := finished
      cases same
      exact range
  | mail | fail | complete | crash => exact ⟨reduced.stored, reduced.verified⟩

theorem ScalarsReduced.run (reaches : View.Reaches kenv cfg arrives v v')
    (kinds : v.bodies.map StepBody.kind = signKinds) (reduced : ScalarsReduced v) :
    ScalarsReduced v' := by
  induction reaches with
  | refl => exact reduced
  | tail path last ih => exact ih.step ((View.Reaches.kinds path).trans kinds) last

end Reduced

/-! ### The context of a request -/

/-- A leader's context before its run. -/
structure SignStart (ctx : MpcContext) (data : Option Bytes) (gpk : Int × Int) : Prop where
  kinds : (ctx.mpcSteps.map Step.body).map StepBody.kind = signKinds
  quiet : ∀ step ∈ ctx.mpcSteps, step.msgChan = []
  fresh : ∀ mars, StepBody.ackRS mars ∈ ctx.mpcSteps.map Step.body → mars = .create
  message : ctx.mpcResult.byteResult .mpcM = data
  key : ctx.mpcResult.result .publicKeyResult = some [gpk.1, gpk.2]
  unsigned : ctx.mpcResult.result .mpcS = none

theorem createReqMpcSign_eq_ok {kenv : KeyEnv} {cfg : Config} {srv after : MpcDistributor}
    {mpcID : Nat} {data ext : Option Bytes} {pkBytes : Bytes} {byApprove : Int}
    {reload : Option (List Bytes)} {ctx : MpcContext}
    (created : createReqMpcSign kenv cfg srv mpcID data ext pkBytes byApprove reload =
      .ok (ctx, after)) :
    ∃ address loaded, pkToAddress kenv.toEnv pkBytes = .ok address ∧
      srv.loadStoremanAddress kenv address reload = .ok (loaded, after) ∧
      SignStart ctx data loaded.gpk := by
  simp only [createReqMpcSign, Outcome.bind_eq_ok_iff] at created
  obtain ⟨address, isAddress, ⟨loaded, srv'⟩, isLoaded, ctx', creates, same⟩ := created
  cases same
  refine ⟨address, loaded, isAddress, isLoaded, ?_⟩
  obtain ⟨poly, -, rfl⟩ := createContext_signSteps true creates
  constructor
  · rfl
  · simp [signSteps, signStep, Step.create]
  · simp [signSteps, signStep, Step.create]
  · cases data <;> cases ext <;> rfl
  · cases data <;> cases ext <;> rfl
  · cases data <;> cases ext <;> rfl

/-! ### What is handed out -/

section Runs

variable {kenv : KeyEnv} {cfg : Config} {arrives : NodeID → MpcMessage → Prop}
  {srv : MpcDistributor} {ctx : MpcContext} {data : Option Bytes} {gpk : Int × Int}
  (start : SignStart ctx data gpk)

include start

theorem SignStart.kept {v : View}
    (path : View.Reaches kenv cfg arrives (ContextRun.start srv ctx).view v) :
    v.store.byteResult .mpcM = data ∧ v.store.result .publicKeyResult = some [gpk.1, gpk.2] ∧
      ScalarsReduced v := by
  have unwritten : ∀ kind ∈ signKinds.drop 0, ResultKey.publicKeyResult ∉ kind.writes := by decide
  refine ⟨?_, ?_, ScalarsReduced.run path start.kinds ⟨?_, ?_⟩⟩
  · exact (View.Reaches.byteResult_frame path (by decide)).trans start.message
  · rw [← start.kinds] at unwritten
    exact (View.Reaches.result_frame path (Nat.zero_le 0) unwritten).2.trans start.key
  · intro value isValue
    exact absurd (start.unsigned.symm.trans isValue) (by simp)
  · intro mars member
    rw [start.fresh mars member]
    exact ⟨le_rfl, by decide⟩

theorem SignStart.length : ctx.mpcSteps.length = 6 := by
  simpa [signKinds] using congrArg List.length start.kinds

/-- The last step verifies the signature and stores it as the result. -/
theorem SignStart.finishes_last {run u v : ContextRun} {choice : Choice}
    (finishes : ContextRun.Finishes kenv cfg arrives (.start srv ctx) run 5 choice u v) :
    ∃ mars rpkBytes, (u.ctx.mpcSteps.map Step.body)[5]? = some (.ackRS mars) ∧
      mars.verifyRS kenv.toEnv u.ctx.mpcResult = .ok () ∧
      fromECDSAPub (some mars.mpcR) = .ok rpkBytes ∧
      run.ctx.getMpcResult = rpkBytes ++ intBytes mars.mpcS := by
  have initially : Inbox ((ContextRun.start srv ctx).view.Heard arrives) ctx.mpcSteps :=
    inbox_of_empty start.quiet
  obtain ⟨step, body, store, srv', found, -, finished, isNext⟩ := finishes.body
  obtain ⟨inbox, path⟩ := ContextRun.Reaches.refines finishes.before initially
  have kinds : u.view.bodies.map StepBody.kind = signKinds :=
    (View.Reaches.kinds path).trans start.kinds
  obtain ⟨mars, isAck⟩ : ∃ mars, step.body = .ackRS mars := by
    refine StepBody.eq_ackRS ?_
    have sixth := congrArg (fun kinds => kinds[5]?) kinds
    simpa [ContextRun.view, found, signKinds] using sixth
  rw [isAck] at finished
  obtain ⟨between, verifies, stored⟩ := StepBody.finish_cases finished
  simp only [StepBody.finishStep, MpcAckRSStep.finish, Outcome.bind_eq_ok_iff] at verifies
  obtain ⟨_, ⟨_, verified, rpkBytes, encodes, built⟩, same⟩ := verifies
  cases built
  cases same
  obtain rfl : store = u.ctx.mpcResult.setByteValue .mpcContextResult
      (rpkBytes ++ intBytes mars.mpcS) := by
    rcases stored with ⟨⟨ptStep, isKey⟩, -⟩ | ⟨-, same, -⟩
    · cases isKey
    · exact same
  refine ⟨mars, rpkBytes, by simp [found, isAck], verified, encodes, ?_⟩
  -- Nothing is stored after the last step.
  have length : u.ctx.mpcSteps.length = 6 := by
    simpa [ContextRun.view, signKinds] using congrArg List.length kinds
  have ended : v.view.Over := by
    rw [isNext]
    simp [View.Over, ContextRun.view, Pc.stage, length]
  have sound := (ContextRun.Reaches.refines finishes.toNext initially).1
  obtain ⟨-, sameStore, -⟩ :=
    View.Reaches.ended (ContextRun.Reaches.refines finishes.after sound).2 ended
  have sameResult : run.ctx.mpcResult = v.ctx.mpcResult := sameStore
  rw [MpcContext.getMpcResult, sameResult, isNext]
  simp

end Runs

/-- The result of a signing that returns without an error is `R` followed by `S`, which the node
has verified for the requested data and the loaded key. At that moment all results of peers that
it had collected were these two. -/
theorem handed_out_verifies (kenv : KeyEnv) (cfg : Config) (srv after : MpcDistributor)
    (mpcID : Nat) (data ext : Option Bytes) (pkBytes : Bytes) (byApprove : Int)
    (reload : Option (List Bytes)) (ctx : MpcContext)
    (created : createReqMpcSign kenv cfg srv mpcID data ext pkBytes byApprove reload =
      .ok (ctx, after))
    (arrives : NodeID → MpcMessage → Prop) (run : ContextRun)
    (reaches : ContextRun.Reaches kenv cfg arrives (.start after ctx) run)
    (returned : run.pc = .returned none) :
    ∃ (address : Address) (loaded : MpcDistributor.Loaded) (M : Bytes) (R : Int × Int) (S : Int)
        (rpkBytes : Bytes),
      pkToAddress kenv.toEnv pkBytes = .ok address ∧
      srv.loadStoremanAddress kenv address reload = .ok (loaded, after) ∧ data = some M ∧
      fromECDSAPub (some R) = .ok rpkBytes ∧ 0 ≤ S ∧ S < N ∧
      run.ctx.getMpcResult = rpkBytes ++ intBytes S ∧
      (∃ mgpk point, kenv.curve.scalarBaseMult (intBytes S) = .ok (some point) ∧
        kenv.curve.scalarMult (some loaded.gpk)
          (intBytes (beNat (kenv.sha256 ((kenv.sha256 M).val ++ rpkBytes)).val)) = .ok mgpk ∧
        kenv.curve.add mgpk (some R) = .ok (some point)) ∧
      ∃ choice u v mars, ContextRun.Finishes kenv cfg arrives (.start after ctx) run 5 choice u v ∧
        (u.ctx.mpcSteps.map Step.body)[5]? = some (.ackRS mars) ∧
        (∀ entry ∈ mars.remoteMpcR, entry.2 = R) ∧ ∀ entry ∈ mars.remoteMpcS, entry.2 = S := by
  obtain ⟨address, loaded, isAddress, isLoaded, start⟩ := createReqMpcSign_eq_ok created
  have initially : Inbox ((ContextRun.start after ctx).view.Heard arrives) ctx.mpcSteps :=
    inbox_of_empty start.quiet
  -- The run has finished its last step, in which the signature is verified.
  have inside : 5 < (ContextRun.start after ctx).ctx.mpcSteps.length := by
    simp [ContextRun.start, start.length]
  obtain ⟨choice, u, v, finishes⟩ := (ContextRun.Reaches.finished reaches initially inside
    (by simp [ContextRun.start, Pc.stage, Stage.Past])).2 (by rw [returned]; trivial)
  obtain ⟨mars, rpkBytes, isBody, verified, encodes, result⟩ := start.finishes_last finishes
  obtain ⟨sameR, sameS, M, gpkItem, gpkX, gpkY, rpkBytes', mgpk, point, isM, isItem, isX, isY,
    encodes', base, multiple, sum⟩ := MpcAckRSStep.verifyRS_eq_ok verified
  obtain rfl : rpkBytes = rpkBytes' := by simpa [encodes] using encodes'
  obtain ⟨message, key, reduced⟩ :=
    start.kept (ContextRun.Reaches.refines finishes.before initially).2
  have isData : data = some M := message.symm.trans isM
  obtain rfl : gpkItem = [loaded.gpk.1, loaded.gpk.2] :=
    Option.some.inj (isItem.symm.trans key)
  cases isX
  cases isY
  obtain ⟨nonneg, small⟩ := reduced.verified mars (List.mem_of_getElem? isBody)
  exact ⟨address, loaded, M, mars.mpcR, mars.mpcS, rpkBytes, isAddress, isLoaded, isData, encodes,
    nonneg, small, result, ⟨mgpk, point, base, multiple, sum⟩, choice, u, v, mars, finishes, isBody,
    sameR, sameS⟩

/-! ### A leader that signs with one other node -/

def signEnv : KeyEnv :=
  { sampleEnv.toKeyEnv with
    curve := HonestRun.twoNodeEnv.curve
    sha256 := HonestRun.twoNodeEnv.sha256 }

/-- Node 2 of the two nodes whose shares of the key are on `1 + x`. -/
def signServer : MpcDistributor :=
  let address := bePad 20 0x7e5f4552091a69125d5dfcb7b8c2659029395bdf
  { keyedServer with
    mpcAccountMap := [(address, ⟨address, 3, [⟨1, 1⟩, ⟨2, 2⟩], hexEncode baseBytes⟩)] }

/-- The leader deals the nonce `2 + x`, the other node zero. All shares of both are counted. -/
def pairSigning : List Action :=
  let plain := { Choice.plain 2 [] with random := ⟨.ok 2, [0], []⟩ }
  let orders (scalars : List (Assoc Nat Int)) (points : List (Assoc Nat (Int × Int))) :=
    ({ plain with orders := ⟨scalars, points⟩ } : Choice).moves 1
  let nonce (seed : Nat) := (HonestRun.twoNodeTable.coords (2 + seed : Nat)).getD (0, 0)
  let share (seed : Nat) := schnorrSign (1 + seed) (2 + seed) (HonestRun.twoNodeAck.mpcS - 2)
  let R := HonestRun.twoNodeAck.mpcR
  plain.moves 7
    ++ hears 1 ⟨7, 0, [], [3], []⟩ ++ plain.moves 4 ++ plain.timesOut ++ plain.moves 2
    ++ plain.moves 7
    ++ plain.moves 4 ++ [.messageLoop 2] ++ hears 1 ⟨7, 2, [], [0], []⟩
    ++ plain.moves 2 ++ orders [[(1, 0), (2, 4)]] []
    ++ plain.moves 4 ++ [.messageLoop 3] ++ hears 1 ⟨7, 3, [], [(nonce 1).1, (nonce 1).2], []⟩
    ++ plain.moves 2 ++ orders [] [[(1, nonce 1), (2, nonce 2)]]
    ++ plain.moves 4 ++ [.messageLoop 4] ++ hears 1 ⟨7, 4, [], [share 1], []⟩
    ++ plain.moves 2 ++ orders [[(1, share 1), (2, share 2)]] []
    ++ hears 1 ⟨7, 5, [], [HonestRun.twoNodeAck.mpcS, R.1, R.2], []⟩
    ++ plain.moves 4 ++ [.messageLoop 5] ++ plain.moves 3
    ++ plain.moves 15

def pairSigned : Option ContextRun :=
  match createReqMpcSign signEnv ⟨2, 2⟩ signServer 7 (some [1]) (some []) baseBytes 0 none with
  | .ok (ctx, after) =>
    ContextRun.follow signEnv ⟨2, 2⟩ (fun _ _ => true) pairSigning (.start after ctx)
  | _ => none

private theorem pairSigned_returns :
    pairSigned.map (fun run => (run.pc, (run.ctx.mpcSteps.map Step.body)[5]?)) =
      some (.returned none, some (.ackRS HonestRun.twoNodeAck)) := by
  decide +kernel

theorem handed_out_verifies_pair :
    ∃ run ctx after, createReqMpcSign signEnv ⟨2, 2⟩ signServer 7 (some [1]) (some []) baseBytes 0
        none = .ok (ctx, after) ∧
      ContextRun.Reaches signEnv ⟨2, 2⟩ (fun _ _ => True) (.start after ctx) run ∧
      run.pc = .returned none ∧
      (run.ctx.mpcSteps.map Step.body)[5]? = some (.ackRS HonestRun.twoNodeAck) ∧
      ∃ R S rpkBytes, fromECDSAPub (some R) = .ok rpkBytes ∧
        run.ctx.getMpcResult = rpkBytes ++ intBytes S := by
  obtain ⟨run, followed, returned⟩ := Option.map_eq_some_iff.mp pairSigned_returns
  unfold pairSigned at followed
  split at followed
  next ctx after created =>
    have reaches : ContextRun.Reaches signEnv ⟨2, 2⟩ (fun _ _ => True) (.start after ctx) run :=
      ContextRun.reaches_of_follow (fun _ _ _ => trivial) followed
    obtain ⟨ended, counted⟩ := Prod.mk.inj returned
    obtain ⟨_, _, _, R, S, rpkBytes, -, -, -, encodes, -, -, result, -⟩ :=
      handed_out_verifies signEnv ⟨2, 2⟩ signServer after 7 (some [1])
        (some []) baseBytes 0 none ctx created _ run reaches ended
    exact ⟨run, ctx, after, created, reaches, ended, counted, R, S, rpkBytes, encodes, result⟩
  next => cases followed

end SchnorrMpc
