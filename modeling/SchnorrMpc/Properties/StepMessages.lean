import SchnorrMpc.Crypto.Reference
import SchnorrMpc.Properties.Gates
import SchnorrMpc.Properties.KeyFiles

/-!
# What a message can do to a step

A message of any length is refused by most handlers. The handlers of shares and
of points read their integers before they look at the length, so a message that
is too short ends the process of the node. Points are taken as they come: the
result is on the curve if all that has been collected is.
-/
namespace SchnorrMpc

open Lib S256

/-! ### Steps with one generator -/

/-- Of the steps that can have several generators, those with one. -/
def StepKind.Single : StepKind → Prop
  | gpk preValueKeys _ | r preValueKeys _ | s preValueKeys _ => preValueKeys.length = 1
  | _ => True

/-- The steps of all contexts have one generator. -/
theorem createContext_single {cfg : Config} {ctxType : CtxType} {mpcID : Nat}
    {peers : List PeerInfo} {preSetValue : List MpcValue} {ctx : MpcContext}
    (created : createContext cfg ctxType mpcID peers preSetValue = .ok ctx) :
    ∀ step ∈ ctx.mpcSteps, step.body.kind.Single := by
  obtain ⟨leader, poly, steps, -, isSteps, rfl⟩ := createContext_steps created
  rcases isSteps with rfl | rfl
  · cases leader <;> simp [gpkSteps, gpkStep, Step.create, StepBody.kind, StepKind.Single,
      MpcPointStep.create]
  · cases leader <;> simp [signSteps, signStep, Step.create, StepBody.kind, StepKind.Single,
      MpcPointStep.create, MpcSStep.create]

theorem ContextRun.Reaches.kind {kenv : KeyEnv} {cfg : Config}
    {arrives : NodeID → MpcMessage → Prop} {base run : ContextRun} {P : StepKind → Prop}
    (reaches : Reaches kenv cfg arrives base run)
    (initially : ∀ step ∈ base.ctx.mpcSteps, P step.body.kind) :
    ∀ step ∈ run.ctx.mpcSteps, P step.body.kind := by
  induction reaches with
  | refl => exact initially
  | tail _ last ih =>
    obtain ⟨action, -, stepped⟩ := last
    intro step' member
    obtain ⟨i, here⟩ := List.mem_iff_getElem?.mp member
    obtain ⟨step, found, becomes⟩ := (step_does stepped).becomes here
    rw [becomes.kind]
    exact ih step (List.mem_of_getElem? found)

/-! ### Messages that are too short -/

/-- The handler finds the integers that it reads: shares look for the sender first, points read
two integers of every message for the log. -/
def StepBody.Readable (peers : List PeerInfo) (msg : StepMessage) : StepBody → Prop
  | skShare poly | rskShare poly =>
    msg.data ≠ [] ∨ (poly.message.lookup (getPeerSeed peers msg.peerID)).isSome
  | gpk _ | r _ => 2 ≤ msg.data.length
  | _ => True

/-- The handler returns, and a message that it refuses leaves the step as it is. -/
def StepBody.Withstands (peers : List PeerInfo) (msg : StepMessage) (body : StepBody) : Prop :=
  ∃ accepted body', body.handleMessage peers msg = .ok (accepted, body') ∧
    (accepted = false → body' = body)

section

variable {peers : List PeerInfo} {msg : StepMessage}

theorem RandomPolynomialValue.withstands_iff (poly : RandomPolynomialValue) :
    (∃ accepted poly', poly.handleMessage peers msg = .ok (accepted, poly') ∧
      (accepted = false → poly' = poly)) ↔
    (msg.data ≠ [] ∨ (poly.message.lookup (getPeerSeed peers msg.peerID)).isSome) := by
  cases heard : poly.message.lookup (getPeerSeed peers msg.peerID) with
  | some value => simp [handleMessage, heard]
  | none =>
    cases isData : msg.data with
    | nil => simp [handleMessage, heard, isData, Outcome.index]
    | cons value rest => simp [handleMessage, heard, isData]

theorem MpcPointStep.withstands_iff {ptStep : MpcPointStep} (single : ptStep.messages.length = 1) :
    (∃ accepted ptStep', ptStep.handleMessage peers msg = .ok (accepted, ptStep') ∧
      (accepted = false → ptStep' = ptStep)) ↔ 2 ≤ msg.data.length := by
  obtain ⟨pointer, isPointer⟩ := List.length_eq_one_iff.mp single
  match isData : msg.data with
  | [] => simp [handleMessage, isData, Outcome.index]
  | [x] => simp [handleMessage, isData, Outcome.index]
  | x :: y :: rest =>
    simp only [handleMessage, isData, signNum, single]
    refine iff_of_true ?_ (by simp)
    by_cases unknown : getPeerSeed peers msg.peerID = 0
    · simp [Outcome.index, unknown]
    · by_cases longer : rest = []
      · subst longer
        obtain ⟨messages, resultKeys⟩ := ptStep
        simp only at isPointer
        subst isPointer
        cases heard : (pointer.message.lookup (getPeerSeed peers msg.peerID)).isSome
        all_goals simp [Outcome.index, unknown, offer, heard]
      · simp [Outcome.index, unknown, longer]

theorem MpcSStep.withstands {msStep : MpcSStep} (single : msStep.messages.length = 1) :
    ∃ accepted msStep', msStep.handleMessage peers msg = .ok (accepted, msStep') ∧
      (accepted = false → msStep' = msStep) := by
  obtain ⟨pointer, isPointer⟩ := List.length_eq_one_iff.mp single
  obtain ⟨messages, resultKeys⟩ := msStep
  simp only at isPointer
  subst isPointer
  simp only [handleMessage, signNum, List.length_singleton]
  by_cases unknown : getPeerSeed peers msg.peerID = 0
  · simp [unknown]
  · rcases isData : msg.data with _ | ⟨value, _ | ⟨second, rest⟩⟩
    · simp [unknown]
    · cases heard : (pointer.message.lookup (getPeerSeed peers msg.peerID)).isSome
      all_goals simp [Outcome.index, unknown, offer, heard]
    · simp [unknown]

theorem withstands_wrap {α : Type} {handled : Go (Bool × α)} {step : α} {wrap : α → StepBody}
    (injective : Function.Injective wrap) :
    (∃ accepted body', (do let (accepted, after) ← handled; pure (accepted, wrap after) :
        Go (Bool × StepBody)) = .ok (accepted, body') ∧ (accepted = false → body' = wrap step)) ↔
    ∃ accepted after, handled = .ok (accepted, after) ∧ (accepted = false → after = step) := by
  cases handled with
  | ok result =>
    obtain ⟨accepted, after⟩ := result
    simp [injective.eq_iff]
  | err | panic => simp

theorem StepBody.withstands_iff {body : StepBody} (single : body.kind.Single) :
    body.Withstands peers msg ↔ body.Readable peers msg := by
  cases body with
  | skShare poly =>
    exact (withstands_wrap fun _ _ => StepBody.skShare.inj).trans poly.withstands_iff
  | rskShare poly =>
    exact (withstands_wrap fun _ _ => StepBody.rskShare.inj).trans poly.withstands_iff
  | gpk ptStep =>
    refine (withstands_wrap fun _ _ => StepBody.gpk.inj).trans (MpcPointStep.withstands_iff ?_)
    simpa [StepKind.Single, StepBody.kind] using single
  | r ptStep =>
    refine (withstands_wrap fun _ _ => StepBody.r.inj).trans (MpcPointStep.withstands_iff ?_)
    simpa [StepKind.Single, StepBody.kind] using single
  | s msStep =>
    refine iff_of_true ((withstands_wrap fun _ _ => StepBody.s.inj).mpr
      (MpcSStep.withstands ?_)) trivial
    simpa [StepKind.Single, StepBody.kind] using single
  | request req =>
    refine iff_of_true ⟨_, _, rfl, ?_⟩ trivial
    split <;> simp
  | ackGPK ack =>
    refine iff_of_true ⟨_, _, rfl, ?_⟩ trivial
    split <;> simp
  | ackRS mars =>
    refine iff_of_true ⟨_, _, rfl, ?_⟩ trivial
    split <;> simp
  | ackMpc | ready | getReady => exact iff_of_true ⟨true, _, rfl, by simp⟩ trivial

end

/-- In every state of every context, a step survives exactly the messages that its handler finds
long enough. -/
theorem handleMessage_withstands_iff {kenv : KeyEnv} {cfg : Config} {ctxType : CtxType}
    {mpcID : Nat} {peers : List PeerInfo} {preSetValue : List MpcValue} {ctx : MpcContext}
    (created : createContext cfg ctxType mpcID peers preSetValue = .ok ctx) {srv : MpcDistributor}
    {run : ContextRun}
    (reaches : ContextRun.Reaches kenv cfg (fun _ _ => True) (.start srv ctx) run) {step : Step}
    (isStep : step ∈ run.ctx.mpcSteps) (msg : StepMessage) :
    step.body.Withstands run.ctx.peers msg ↔ step.body.Readable run.ctx.peers msg :=
  StepBody.withstands_iff
    (reaches.kind (fun step member => createContext_single created step member) step isStep)

namespace MessageSample

def peers : List PeerInfo := [⟨1, 5⟩, ⟨2, 6⟩, ⟨3, 7⟩]

def cfg : Config := ⟨2, 3⟩

def follower : MpcContext :=
  match createContext cfg .mpcGPKPeer 7 peers [] with
  | .ok ctx => ctx
  | _ => createMpcContext 7 peers []

theorem follower_created : createContext cfg .mpcGPKPeer 7 peers [] = .ok follower := rfl

/-- All message loops have been started, and the share of node 1 has been filed. -/
def heardRun : Option ContextRun :=
  ContextRun.follow KeyFileSample.env cfg (fun _ _ => true)
    ((Choice.plain 1 []).moves 5 ++ hears 1 ⟨7, 2, [], [9], []⟩)
    (.start (KeyFileSample.server 3) follower)

private theorem heardRun_heard :
    heardRun.map (fun run => (run.ctx.mpcSteps[2]?.map Step.body, run.ctx.peers)) =
      some (some (.skShare ⟨[0, 0], [(5, 9)], [0, 0, 0], none⟩), peers) := by
  decide +kernel

end MessageSample

open MessageSample in
/-- The step survives a second message of node 1 without integers, and no such message of
node 2. -/
theorem handleMessage_withstands_iff_share :
    ∃ run step, ContextRun.Reaches KeyFileSample.env cfg (fun _ _ => True)
        (.start (KeyFileSample.server 3) follower) run ∧
      run.ctx.mpcSteps[2]? = some step ∧ step.body.Withstands run.ctx.peers ⟨1, [], [], 2⟩ ∧
      ¬step.body.Withstands run.ctx.peers ⟨2, [], [], 2⟩ := by
  obtain ⟨run, followed, heard⟩ := Option.map_eq_some_iff.mp heardRun_heard
  obtain ⟨isStep, isPeers⟩ := Prod.mk.inj heard
  obtain ⟨step, found, isBody⟩ := Option.map_eq_some_iff.mp isStep
  have reaches : ContextRun.Reaches KeyFileSample.env cfg (fun _ _ => True) _ run :=
    ContextRun.reaches_of_follow (fun _ _ _ => trivial) followed
  refine ⟨run, step, reaches, found, ?_, ?_⟩
  all_goals
    rw [handleMessage_withstands_iff follower_created reaches (List.mem_of_getElem? found),
      isBody, isPeers]
  · exact .inr (by decide +kernel)
  · exact fun readable => readable.elim (absurd rfl) (by decide +kernel)

open MessageSample in
/-- A member's message without integers ends the process of the node in both kinds of steps. -/
theorem empty_message_crashes :
    (follower.mpcSteps[2]?.map fun step => step.body.handleMessage peers ⟨1, [], [], 2⟩) =
        some .panic ∧
      (follower.mpcSteps[3]?.map fun step => step.body.handleMessage peers ⟨1, [], [], 3⟩) =
        some .panic := by
  decide +kernel

/-! ### Points off the curve -/

namespace MpcPointStep

def shares (ptStep : MpcPointStep) : List (Int × Int) :=
  ptStep.messages.flatMap fun pointer => pointer.message.map Prod.snd

end MpcPointStep

namespace BitCurve

variable {ecmult : Ecmult}

/-- Whatever a point of the curve is multiplied with, the result is one, or nil. -/
theorem scalarMult_isAffine (multiplies : EcmultLaw ecmult) {Q : S256.Group} {scalar : Bytes}
    {result : Point} (returned : scalarMult ecmult (affine Q) scalar = .ok result) :
    ∃ R, result = affine R := by
  unfold scalarMult at returned
  split at returned
  · cases returned
  · cases found : ShortWeierstrass.coords Q with
    | none =>
      rw [affine, found] at returned
      cases returned
    | some xy =>
      obtain ⟨x, y⟩ := xy
      simp only [affine, found, Option.map_some, Int.natAbs_natCast, pubkeyScalarMul] at returned
      split at returned
      next =>
        cases returned
        exact ⟨0, rfl⟩
      next a b multiplied =>
        cases returned
        split at multiplied
        · cases multiplied
        next accepted =>
          obtain ⟨below, nonzero⟩ := not_or.mp accepted
          refine ⟨beNat scalar • Q, ?_⟩
          rw [affine, multiplies Q x y _ found (Nat.pos_of_ne_zero nonzero) (not_le.mp below)]
          simp only [Option.some.injEq] at multiplied
          rw [multiplied]
          rfl

theorem add_isAffine {Q R : S256.Group} {result : Point}
    (returned : add (affine Q) (affine R) = .ok result) : ∃ S, result = affine S := by
  by_cases vertical : Q = R ∨ Q = -R
  · rw [add_affine_panic vertical] at returned
    cases returned
  · obtain ⟨different, independent⟩ := not_or.mp vertical
    by_cases left : Q = 0
    · subst left
      cases returned
    · by_cases right : R = 0
      · subst right
        obtain ⟨point, isPoint⟩ := exists_affine_eq left
        rw [isPoint] at returned
        cases returned
      · rw [add_affine left right different independent] at returned
        cases returned
        exact ⟨Q + R, rfl⟩

end BitCurve

section

variable {ecmult : Ecmult}

theorem lagrangeECC_isAffine (multiplies : BitCurve.EcmultLaw ecmult) {sig : List Point}
    {x : List Int} {degree : Int} {result : Point} (points : ∀ point ∈ sig, ∃ Q, point = affine Q)
    (returned : lagrangeECC (BitCurve.curve ecmult) sig x degree = .ok result) :
    ∃ R, result = affine R := by
  simp only [lagrangeECC, Outcome.bind_eq_ok_iff, Outcome.index_eq_ok_iff] at returned
  obtain ⟨b, -, sig0, isFirst, b0, -, sum, first, loop⟩ := returned
  have started : ∃ R, sum = affine R := by
    obtain ⟨Q, rfl⟩ := points sig0 (List.mem_of_getElem? isFirst)
    exact BitCurve.scalarMult_isAffine multiplies first
  refine Outcome.foldlM_invariant (fun sum => ∃ R, sum = affine R) ?_ started loop
  rintro sum next i - ⟨R, rfl⟩ round
  simp only [Outcome.bind_eq_ok_iff, Outcome.index_eq_ok_iff] at round
  obtain ⟨sigi, isPoint, bi, -, temp, multiplied, added⟩ := round
  obtain ⟨Q, rfl⟩ := points sigi (List.mem_of_getElem? isPoint)
  obtain ⟨S, rfl⟩ := BitCurve.scalarMult_isAffine multiplies multiplied
  exact BitCurve.add_isAffine added

theorem MpcPointGenerator.result_onCurve {env : Env} {cfg : Config}
    (isCurve : env.curve = BitCurve.curve ecmult) (multiplies : BitCurve.EcmultLaw ecmult)
    {pointer result : MpcPointGenerator} {order : Assoc Nat (Int × Int)}
    (points : ∀ entry ∈ order, OnCurve entry.2)
    (calculated : pointer.calculateResult env cfg order = .ok result) : OnCurve result.result := by
  obtain ⟨-, interpolated, -⟩ := calculateResult_eq_ok calculated
  rw [isCurve] at interpolated
  obtain ⟨R, isResult⟩ := lagrangeECC_isAffine multiplies (fun point member => by
    obtain ⟨entry, isEntry, rfl⟩ := List.mem_map.mp member
    have onCurve := points entry isEntry
    refine ⟨ofAffine entry.2 onCurve, ?_⟩
    rw [affine_ofAffine, Int.natAbs_of_nonneg onCurve.x_nonneg,
      Int.natAbs_of_nonneg onCurve.y_nonneg]) interpolated
  exact affine_onCurve isResult.symm

/-- What each generator comes to, each with its own order. -/
theorem calculateEach_all {γ ο : Type} {calculate : γ → ο → Go γ} {P : ο → γ → Prop}
    {Q : γ → Prop} (each : ∀ generator order result, P order generator →
      calculate generator order = .ok result → Q result) {generators results : List γ}
    {orders : List ο} (related : List.Forall₂ P orders generators)
    (returned : calculateEach calculate generators orders = .ok results) :
    (∀ result ∈ results, Q result) ∧ results.length = generators.length := by
  induction related generalizing results with
  | nil =>
    cases returned
    simp
  | cons first _ ih =>
    simp only [calculateEach, Outcome.bind_eq_ok_iff] at returned
    obtain ⟨result, calculated, rest, others, built⟩ := returned
    cases built
    obtain ⟨all, length⟩ := ih others
    exact ⟨List.forall_mem_cons.mpr ⟨each _ _ _ first calculated, all⟩, by simp [length]⟩

/-- The values under the keys of the generators, and under those that had one before. -/
theorem storeEach_all {γ : Type} {value : γ → List Int} {P : List Int → Prop}
    {resultKeys : List ResultKey} {generators : List γ} {i : Nat} {store store' : BaseMpcResult}
    (all : ∀ generator ∈ generators, P (value generator))
    (stored : storeEach value resultKeys i generators store = .ok store') {key : ResultKey}
    (isKey : (∃ v, store.result key = some v ∧ P v) ∨
      key ∈ (resultKeys.drop i).take generators.length) :
    ∃ v, store'.result key = some v ∧ P v := by
  induction generators generalizing i store with
  | nil =>
    cases stored
    simpa using isKey
  | cons generator rest ih =>
    simp only [storeEach, Outcome.bind_eq_ok_iff, Outcome.index_eq_ok_iff] at stored
    obtain ⟨first, isFirst, others⟩ := stored
    obtain ⟨here, later⟩ := List.forall_mem_cons.mp all
    refine ih later others ?_
    by_cases same : key = first
    · exact .inl ⟨value generator, by simp [same], here⟩
    · rcases isKey with ⟨v, before, holds⟩ | listed
      · exact .inl ⟨v, by simp [same, before], holds⟩
      · right
        rw [List.drop_eq_getElem_cons (List.getElem?_eq_some_iff.mp isFirst).1,
          (List.getElem?_eq_some_iff.mp isFirst).2] at listed
        simpa [same] using listed

/-- A point step that ends without an error ends with points of the curve exactly if it has
collected no others. -/
theorem points_onCurve_iff {env : Env} {cfg : Config}
    (isCurve : env.curve = BitCurve.curve ecmult) (multiplies : BitCurve.EcmultLaw ecmult)
    {ptStep ptStep' : MpcPointStep} {orders : List (Assoc Nat (Int × Int))}
    {store store' : BaseMpcResult}
    (iterates : List.Forall₂ (fun order (pointer : MpcPointGenerator) =>
      order.Perm pointer.message) orders ptStep.messages)
    (finished : ptStep.finish env cfg orders store = .ok (ptStep', store')) :
    ((∀ share ∈ ptStep.shares, OnCurve share) ∧
      ∀ key ∈ ptStep.resultKeys.take ptStep.signNum, ∃ point : Int × Int,
        store'.result key = some [point.1, point.2] ∧ OnCurve point) ↔
    ∀ share ∈ ptStep.shares, OnCurve share := by
  refine ⟨And.left, fun onCurve => ⟨onCurve, fun key isKey => ?_⟩⟩
  simp only [MpcPointStep.finish, Outcome.bind_eq_ok_iff] at finished
  obtain ⟨messages, calculated, after, stored, built⟩ := finished
  cases built
  -- an order lists what its generator has collected
  have related : List.Forall₂ (fun (order : Assoc Nat (Int × Int)) (_ : MpcPointGenerator) =>
      ∀ entry ∈ order, OnCurve entry.2) orders ptStep.messages := by
    rw [List.forall₂_iff_get] at iterates ⊢
    refine ⟨iterates.1, fun i orderInside inside entry member => onCurve entry.2 ?_⟩
    refine List.mem_flatMap.mpr ⟨_, List.get_mem ptStep.messages ⟨i, inside⟩, ?_⟩
    exact List.mem_map_of_mem ((iterates.2 i orderInside inside).mem_iff.mp member)
  obtain ⟨results, length⟩ := calculateEach_all (Q := fun pointer => OnCurve pointer.result)
    (fun _ _ _ points done => MpcPointGenerator.result_onCurve isCurve multiplies points done)
    related calculated
  obtain ⟨v, found, point, rfl, good⟩ := storeEach_all
    (P := fun v => ∃ point : Int × Int, v = [point.1, point.2] ∧ OnCurve point)
    (fun pointer member => ⟨pointer.result, rfl, results pointer member⟩) stored
    (.inr (by simpa [length, MpcPointStep.signNum] using isKey))
  exact ⟨point, found, good⟩

end

namespace MessageSample

def env : Env where
  curve := BitCurve.curve Reference.ecmult
  sha256 _ := word 0
  keccak256 _ := word 0

def base : Int × Int := (Gx, Gy)

/-- The step of the group key after a message of every peer; the third one sends `third`. -/
def collected (third : Int × Int) : Go (MpcPointStep × List Bool) :=
  [(1, base), (2, double), (3, third)].foldlM (fun (ptStep, answers) (sender, point) => do
    let (accepted, ptStep) ← ptStep.handleMessage peers ⟨sender, [point.1, point.2], [], 3⟩
    pure (ptStep, answers ++ [accepted])) (.create [.mpcPublicShare] [.publicKeyResult], [])

def ptStep (third : Int × Int) : MpcPointStep :=
  ⟨[{ createPointGenerator .mpcPublicShare with message := [(5, base), (6, double), (7, third)] }],
    [.publicKeyResult]⟩

def orders (third : Int × Int) : List (Assoc Nat (Int × Int)) :=
  [[(5, base), (6, double), (7, third)]]

theorem iterates (third : Int × Int) : List.Forall₂ (fun order (pointer : MpcPointGenerator) =>
    order.Perm pointer.message) (orders third) (ptStep third).messages :=
  .cons (.refl _) .nil

def stored (third : Int × Int) : Option (List Int) :=
  match (ptStep third).finish env cfg (orders third) .create with
  | .ok (_, store) => store.result .publicKeyResult
  | _ => none

theorem points_onCurve_iff_three :
    ∃ point : Int × Int, stored base = some [point.1, point.2] ∧ OnCurve point := by
  have some : (stored base).isSome := by decide +kernel
  unfold stored at some ⊢
  split at some
  next after store finished =>
    have points : ∀ share ∈ (ptStep base).shares, OnCurve share := by
      have baseOn : OnCurve base := by constructor <;> decide +kernel
      have twiceOn : OnCurve double := by constructor <;> decide +kernel
      simp [MpcPointStep.shares, ptStep, baseOn, twiceOn]
    exact ((points_onCurve_iff rfl Reference.ecmult_law (iterates base) finished).mpr points).2
      .publicKeyResult (by simp [ptStep, MpcPointStep.signNum])
  next => cases some

/-- The point (1, 1) is not on the curve. All three messages are accepted, and the key is stored. -/
theorem offCurve_point_accepted :
    collected (1, 1) = .ok (ptStep (1, 1), [true, true, true]) ∧
      (1, 1) ∈ (ptStep (1, 1)).shares ∧ BitCurve.isOnCurve 1 1 = false ∧
      (stored (1, 1)).isSome = true := by
  decide +kernel

end MessageSample
end SchnorrMpc
