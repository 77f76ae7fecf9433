import SchnorrMpc.Mpc.Dealing
import SchnorrMpc.Mpc.Mail
import SchnorrMpc.Properties.SignRun

/-!
# One nonce, one challenge

Two shares of signatures under one nonce share and different challenges give the
key share away. So a signing must not answer twice. All messages of its fourth
step are made of what is stored then, and none of that is written later.

## Main results

* `View.Moves.noncePaired`: the nonce share and the point that stands for it are stored together.
* `View.Reaches.answers`: the shares of a signature are computed from the final store.
-/
namespace SchnorrMpc

open Lib S256

variable {peers : List PeerInfo} {poly : RandomPolynomialValue} {env : Env} {store : BaseMpcResult}
  {keys : List ResultKey} {i : Nat}

def signKindsOf (leader : Bool) : List StepKind :=
  (if leader then [.request .mpcSignLeader, .ready] else [.ackMpc .mpcSignPeer, .getReady]) ++
    [.rskShare, .r [.rMpcPublicShare] [.rPublicKeyResult], .s [.mpcPrivateShare] [.mpcS], .ackRS]

theorem signSteps_kinds {cfg : Config} {leader : Bool} :
    ((signSteps cfg leader peers poly).map Step.body).map StepBody.kind = signKindsOf leader := by
  cases leader <;> rfl

/-! ### The steps -/

namespace StepBody

variable {env : Env} {peers peers' : List PeerInfo} {store store' : BaseMpcResult}
  {random : Randomness} {body body' : StepBody}

theorem eq_r {preValueKey resultKey : ResultKey}
    (isKind : body.kind = .r [preValueKey] [resultKey]) :
    ∃ pointer, body = .r ⟨[pointer], [resultKey]⟩ ∧ pointer.preValueKey = preValueKey := by
  cases body with
  | r ptStep =>
    obtain ⟨messages, resultKeys⟩ := ptStep
    simp only [kind, StepKind.r.injEq] at isKind
    obtain ⟨keys, rfl⟩ := isKind
    obtain ⟨pointer, rfl, isKey⟩ := List.map_eq_singleton_iff.mp keys
    exact ⟨pointer, rfl, isKey⟩
  | _ => cases isKind

theorem initStep_r {pointer : MpcPointGenerator}
    (inits : (StepBody.r ⟨[pointer], keys⟩).initStep env peers store random =
      some (.ok (body', peers'))) :
    ∃ value x y, store.result pointer.preValueKey = some value ∧ value[0]? = some x ∧
      value[1]? = some y ∧ body' = .r ⟨[{ pointer with seed := (x, y) }], keys⟩ := by
  simp only [initStep, Option.some.injEq, Outcome.bind_eq_ok_iff] at inits
  obtain ⟨_, stepped, same⟩ := inits
  obtain ⟨value, x, y, isValue, isX, isY, rfl⟩ := MpcPointStep.initStep_single stepped
  cases same
  exact ⟨value, x, y, isValue, isX, isY, rfl⟩

end StepBody

/-- The store has what a share of a signature is computed from. -/
structure ChallengeData (store : BaseMpcResult) (message encoded : Bytes) (point : Int × Int)
    (nonce key : Int) : Prop where
  isMessage : store.byteResult .mpcM = some message
  isPoint : ∃ rest, store.result .rPublicKeyResult = some (point.1 :: point.2 :: rest)
  encodes : fromECDSAPub (some point) = .ok encoded
  isNonce : ∃ rest, store.result .rMpcPrivateShare = some (nonce :: rest)
  isKey : ∃ rest, store.result .mpcPrivateShare = some (key :: rest)

def challengeOf (env : Env) (message encoded : Bytes) : Int :=
  beNat (env.sha256 ((env.sha256 message).val ++ encoded)).val

theorem ChallengeData.unique {message message' encoded encoded' : Bytes} {point point' : Int × Int}
    {nonce nonce' key key' : Int} (answers : ChallengeData store message encoded point nonce key)
    (answers' : ChallengeData store message' encoded' point' nonce' key') :
    message = message' ∧ encoded = encoded' ∧ nonce = nonce' ∧ key = key' := by
  obtain ⟨isMessage, ⟨_, isPoint⟩, encodes, ⟨_, isNonce⟩, ⟨_, isKey⟩⟩ := answers
  obtain ⟨isMessage', ⟨_, isPoint'⟩, encodes', ⟨_, isNonce'⟩, ⟨_, isKey'⟩⟩ := answers'
  cases isMessage.symm.trans isMessage'
  cases isNonce.symm.trans isNonce'
  cases isKey.symm.trans isKey'
  have same : point = point' := by
    have lists := Option.some.inj (isPoint.symm.trans isPoint')
    simp only [List.cons.injEq] at lists
    exact Prod.ext lists.1 lists.2.1
  subst same
  cases encodes.symm.trans encodes'
  exact ⟨rfl, rfl, rfl, rfl⟩

theorem exists_cons_of_getElem? {values : List Int} {x : Int} (first : values[0]? = some x) :
    ∃ rest, values = x :: rest := by
  cases values with
  | nil => cases first
  | cons head rest => exact ⟨rest, by cases first; rfl⟩

/-- The step of the signature is initialized with the share for the challenge. -/
theorem StepBody.initStep_s {msg : MpcSGenerator} {body' : StepBody} {peers' : List PeerInfo}
    {random : Randomness}
    (inits : (StepBody.s ⟨[msg], keys⟩).initStep env peers store random =
      some (.ok (body', peers'))) :
    ∃ message encoded point nonce key, ChallengeData store message encoded point nonce key ∧
      body' = .s ⟨[{ msg with
        seed := schnorrSign key nonce (challengeOf env message encoded) }], keys⟩ := by
  simp only [initStep, MpcSStep.initStep, Option.some.injEq, List.mapM_cons, List.mapM_nil,
    MpcSGenerator.initializeFrom, Outcome.bind_eq_ok_iff, Outcome.index_eq_ok_iff,
    BaseMpcResult.getValue_eq_ok_iff, BaseMpcResult.getByteValue_eq_ok_iff] at inits
  obtain ⟨_,
    ⟨_, ⟨_, ⟨points, isPoints, x, isX, y, isY, message, isMessage, encoded, encodes, nonces,
    isNonces, keyShares, isKeys, key, isKey, nonce, isNonce, built⟩, _, nothing, listed⟩, stepped⟩,
    same⟩ := inits
  cases built
  cases nothing
  cases listed
  cases stepped
  cases same
  obtain ⟨tail, rfl⟩ := exists_cons_of_getElem? isX
  obtain ⟨rest, rfl⟩ := exists_cons_of_getElem? isY
  obtain ⟨others, rfl⟩ := exists_cons_of_getElem? isNonce
  obtain ⟨unread, rfl⟩ := exists_cons_of_getElem? isKey
  exact ⟨message, encoded, (x, y), nonce, key,
    ⟨isMessage, ⟨rest, isPoints⟩, encodes, ⟨others, isNonces⟩, ⟨unread, isKeys⟩⟩, rfl⟩

/-! ### Whole runs -/

namespace View

variable {kenv : KeyEnv} {cfg : Config} {arrives : NodeID → MpcMessage → Prop} {v v' : View}
  {leader : Bool}

theorem kind_of_found (kinds : v.bodies.map StepBody.kind = signKindsOf leader) {body : StepBody}
    (found : v.bodies[i]? = some body) : (signKindsOf leader)[i]? = some body.kind := by
  rw [← kinds, List.getElem?_map, found]
  rfl

/-- Once the nonce share is stored, the point beside it is its multiple of the base point. -/
def NoncePaired (curve : Curve) (v : View) : Prop :=
  v.stage.Past 2 → ∃ nonce x y : Int, 0 ≤ nonce ∧ nonce < N ∧
    v.store.result .rMpcPrivateShare = some [nonce] ∧
    v.store.result .rMpcPublicShare = some [x, y] ∧
    curve.scalarBaseMult (intBytes nonce) = .ok (some (x, y))

/-- A run gets past a step by finishing it. -/
theorem Moves.past_cases (moves : Moves kenv cfg arrives v v') (inside : i < v.bodies.length)
    (past : v'.stage.Past i) :
    v.stage.Past i ∨ ∃ body body' choice srv, v.bodies[i]? = some body ∧
      body.finish kenv cfg v.srv v.peers v.store choice = .ok (body', v'.store, srv) := by
  cases moves with
  | handle => exact .inl past
  | init j body body' random peers out isStage isBody admissible inits creates =>
    left
    rw [isStage]
    exact past
  | mail j item rest isStage =>
    left
    rw [isStage]
    exact past
  | finish j body body' choice store srv isStage isBody iterates finishes =>
    rcases Nat.lt_or_eq_of_le (Nat.le_of_lt_succ past) with before | rfl
    · left
      rw [isStage]
      exact before
    · exact .inr ⟨body, body', choice, srv, isBody, finishes⟩
  | fail | crash => exact past.elim
  | complete j isStage isEnd =>
    left
    rw [isStage]
    exact inside.trans_le (List.getElem?_eq_none_iff.mp isEnd)

theorem Moves.noncePaired (moves : Moves kenv cfg arrives v v')
    (kinds : v.bodies.map StepBody.kind = signKindsOf leader)
    (paired : v.NoncePaired kenv.curve) : v'.NoncePaired kenv.curve := by
  intro past
  have length : v.bodies.length = 6 := by
    have same := congrArg List.length kinds
    rw [List.length_map] at same
    cases leader <;> exact same
  rcases moves.past_cases (by omega) past with was | ⟨body, body', choice, srv, isBody, finishes⟩
  · -- nothing after the third step writes the two
    have later : v.stage.AtLeast 3 := by
      cases isStage : v.stage with
      | before j => exact (isStage ▸ was : Stage.Past 2 (.before j))
      | during j mail => exact (isStage ▸ was : Stage.Past 2 (.during j mail))
      | failed | done | panicked => trivial
    obtain ⟨nonce, x, y, nonneg, small, isNonce, isPoint, multiple⟩ := paired was
    refine ⟨nonce, x, y, nonneg, small, ?_, ?_, multiple⟩
    · rw [moves.result_frame later (by rw [kinds]; cases leader <;> decide), isNonce]
    · rw [moves.result_frame later (by rw [kinds]; cases leader <;> decide), isPoint]
  · have isKind : body.kind = .rskShare := by
      have third := kind_of_found kinds isBody
      cases leader <;> exact (Option.some.inj third).symm
    obtain ⟨poly, rfl⟩ := StepBody.eq_rskShare isKind
    obtain ⟨between, computed, stored⟩ := StepBody.finish_cases finishes
    simp only [StepBody.finishStep, Outcome.bind_eq_ok_iff] at computed
    obtain ⟨⟨poly', after⟩, summed, same⟩ := computed
    cases same
    have isStore : v'.store = after := by
      rcases stored with ⟨⟨ptStep, other⟩, -⟩ | ⟨-, same, -⟩
      · cases other
      · exact same
    obtain ⟨share, x, y, nonneg, small, isPoint, rfl⟩ :=
      RandomPolynomialValue.finish_paired summed
    exact ⟨share, x, y, nonneg, small, by simp [isStore], by simp [isStore], isPoint⟩

section

variable (reaches : Reaches kenv cfg arrives v v')

include reaches

theorem Reaches.noncePaired (kinds : v.bodies.map StepBody.kind = signKindsOf leader)
    (paired : v.NoncePaired kenv.curve) : v'.NoncePaired kenv.curve := by
  induction reaches with
  | refl => exact paired
  | tail path last ih => exact last.noncePaired ((Reaches.kinds path).trans kinds) ih

/-- What a run has said in the step of the signature is computed from the store it has now. -/
theorem Reaches.answers (nothing : v.posted = [])
    (kinds : v.bodies.map StepBody.kind = signKindsOf leader) :
    ∀ mail ∈ v'.posted, mail.2.stepID = 4 → ∃ message encoded point nonce key,
      ChallengeData v'.store message encoded point nonce key ∧
      mail.2.data = [schnorrSign key nonce (challengeOf kenv.toEnv message encoded)] := by
  refine Reaches.mail_content (fun store msg => ∃ message encoded point nonce key,
    ChallengeData store message encoded point nonce key ∧
      msg.data = [schnorrSign key nonce (challengeOf kenv.toEnv message encoded)])
    reaches nothing ?_ ?_
  · rintro u msg path ⟨body, body', random, peers, out, item, -, isBody, inits, creates, inOut,
      content, -⟩ isStep
    rw [isStep] at isBody
    have isKind : body.kind = .s [.mpcPrivateShare] [.mpcS] := by
      have fifth := kind_of_found ((Reaches.kinds path).trans kinds) isBody
      cases leader <;> exact (Option.some.inj fifth).symm
    obtain ⟨generator, rfl⟩ := StepBody.eq_s isKind
    obtain ⟨message, encoded, point, nonce, key, answers, rfl⟩ := StepBody.initStep_s inits
    cases creates
    obtain rfl := List.mem_singleton.mp inOut
    exact ⟨message, encoded, point, nonce, key, answers, content⟩
  · rintro u u' msg path move later ⟨message, encoded, point, nonce, key, answers, content⟩
    have sameKinds := (Reaches.kinds path).trans kinds
    refine ⟨message, encoded, point, nonce, key, ⟨?_, ?_, answers.encodes, ?_, ?_⟩, content⟩
    · rw [move.byteResult_frame (by decide), answers.isMessage]
    · rw [move.result_frame later (by rw [sameKinds]; cases leader <;> decide)]
      exact answers.isPoint
    · rw [move.result_frame later (by rw [sameKinds]; cases leader <;> decide)]
      exact answers.isNonce
    · rw [move.result_frame later (by rw [sameKinds]; cases leader <;> decide)]
      exact answers.isKey

/-- What a run has said in the step of the nonce point is the point that it has stored. -/
theorem Reaches.showsNonce (nothing : v.posted = [])
    (kinds : v.bodies.map StepBody.kind = signKindsOf leader) (isStart : v.stage = .before 0) :
    ∀ mail ∈ v'.posted, mail.2.stepID = 3 ∨ mail.2.stepID = 4 → ∃ nonce x y : Int,
      0 ≤ nonce ∧ nonce < N ∧ v'.store.result .rMpcPrivateShare = some [nonce] ∧
      v'.store.result .rMpcPublicShare = some [x, y] ∧
      kenv.curve.scalarBaseMult (intBytes nonce) = .ok (some (x, y)) ∧
      (mail.2.stepID = 3 → mail.2.data = [x, y]) := by
  have unpast : v.NoncePaired kenv.curve := by
    intro past
    rw [isStart] at past
    exact absurd past (Nat.not_lt_zero 2)
  -- the same for both steps
  have said (i : Nat) (isStep : i = 3 ∨ i = 4) : ∀ mail ∈ v'.posted, mail.2.stepID = i →
      ∃ nonce x y : Int, 0 ≤ nonce ∧ nonce < N ∧
      v'.store.result .rMpcPrivateShare = some [nonce] ∧
      v'.store.result .rMpcPublicShare = some [x, y] ∧
      kenv.curve.scalarBaseMult (intBytes nonce) = .ok (some (x, y)) ∧
      (i = 3 → mail.2.data = [x, y]) := by
    refine Reaches.mail_content (fun store msg => ∃ nonce x y : Int, 0 ≤ nonce ∧ nonce < N ∧
      store.result .rMpcPrivateShare = some [nonce] ∧ store.result .rMpcPublicShare = some [x, y] ∧
      kenv.curve.scalarBaseMult (intBytes nonce) = .ok (some (x, y)) ∧
      (i = 3 → msg.data = [x, y])) reaches nothing ?_ ?_
    -- when the message is made: the pair is in the store, and the step reads its point there
    · rintro u msg path ⟨body, body', random, peers, out, item, isStage, isBody, inits, creates,
        inOut, content, -⟩ isMsg
      have sameKinds := (Reaches.kinds path).trans kinds
      have past : u.stage.Past 2 := by
        rw [isStage, isMsg]
        show 2 < i
        omega
      obtain ⟨nonce, x, y, nonneg, small, isNonce, isPoint, multiple⟩ :=
        Reaches.noncePaired path kinds unpast past
      refine ⟨nonce, x, y, nonneg, small, isNonce, isPoint, multiple, fun third => ?_⟩
      subst third
      rw [isMsg] at isBody
      have isKind : body.kind = .r [.rMpcPublicShare] [.rPublicKeyResult] := by
        have fourth := kind_of_found sameKinds isBody
        cases leader <;> exact (Option.some.inj fourth).symm
      obtain ⟨pointer, rfl, isKey⟩ := StepBody.eq_r isKind
      obtain ⟨value, x', y', isValue, isX, isY, rfl⟩ := StepBody.initStep_r inits
      cases creates
      obtain rfl := List.mem_singleton.mp inOut
      rw [isKey] at isValue
      cases isPoint.symm.trans isValue
      cases isX
      cases isY
      exact content
    -- later moves: no step behind this one writes either key
    · rintro u u' msg path move later ⟨nonce, x, y, nonneg, small, isNonce, isPoint, rest⟩
      have sameKinds := (Reaches.kinds path).trans kinds
      have behind : u.stage.AtLeast 3 := by
        cases isStage : u.stage with
        | before j | during j =>
          rw [isStage] at later
          show 3 ≤ j
          have : i ≤ j := later
          omega
        | failed | done | panicked => trivial
      refine ⟨nonce, x, y, nonneg, small, ?_, ?_, rest⟩
      · rw [move.result_frame behind (by rw [sameKinds]; cases leader <;> decide), isNonce]
      · rw [move.result_frame behind (by rw [sameKinds]; cases leader <;> decide), isPoint]
  rintro mail member isStep
  rcases isStep with third | fourth
  · obtain ⟨nonce, x, y, nonneg, small, isNonce, isPoint, multiple, shows⟩ :=
      said 3 (.inl rfl) mail member third
    exact ⟨nonce, x, y, nonneg, small, isNonce, isPoint, multiple, fun _ => shows rfl⟩
  · obtain ⟨nonce, x, y, nonneg, small, isNonce, isPoint, multiple, -⟩ :=
      said 4 (.inr rfl) mail member fourth
    exact ⟨nonce, x, y, nonneg, small, isNonce, isPoint, multiple, fun third => by omega⟩

end

end View

/-- A signing answers one challenge with its nonce share. Whatever arrives, and whenever the time is
over: all shares of the signature that a node has sent are the same, `r + m sk` for the key share
`sk` that its context was created with, the nonce share `r` that it has shown the multiple of the
base point of, and the one challenge `m` of the data of the request and the nonce point that it has
stored. -/
theorem nonce_answers_one_challenge (kenv : KeyEnv) (cfg : Config) (leader : Bool) (mpcID : Nat)
    (peers : List PeerInfo) (preSetValue : List MpcValue) (ctx : MpcContext)
    (created : createContext cfg (if leader then .mpcSignLeader else .mpcSignPeer) mpcID peers
      preSetValue = .ok ctx) (srv : MpcDistributor) (arrives : NodeID → MpcMessage → Prop)
    (run : ContextRun) (reaches : ContextRun.Reaches kenv cfg arrives (.start srv ctx) run)
    (receiver : NodeID) (msg : MpcMessage) (sent : (receiver, msg) ∈ mails run.sent)
    (isStep : msg.stepID = 4) :
    ∃ (M encoded : Bytes) (R shown : Int × Int) (r sk : Int),
      ctx.mpcResult.byteResult .mpcM = some M ∧
      (∃ rest, ctx.mpcResult.result .mpcPrivateShare = some (sk :: rest)) ∧
      ChallengeData run.ctx.mpcResult M encoded R r sk ∧ 0 ≤ r ∧ r < N ∧
      kenv.curve.scalarBaseMult (intBytes r) = .ok (some shown) ∧
      msg.data = [schnorrSign sk r (challengeOf kenv.toEnv M encoded)] ∧
      ∀ other, other ∈ mails run.sent →
        (other.2.stepID = 3 → other.2.data = [shown.1, shown.2]) ∧
        (other.2.stepID = 4 → other.2.data = msg.data) := by
  obtain ⟨poly, -, rfl⟩ := createContext_signSteps leader created
  have quiet : ∀ step ∈ signSteps cfg leader peers poly, step.msgChan = [] :=
    fun step member => (signSteps_quiet step member).1
  obtain ⟨-, path⟩ := ContextRun.Reaches.refines reaches (inbox_of_empty quiet)
  have kinds : (ContextRun.start srv { createMpcContext mpcID peers preSetValue with
      mpcSteps := signSteps cfg leader peers poly }).view.bodies.map StepBody.kind =
      signKindsOf leader := signSteps_kinds
  have posted {mail : Mail} (member : mail ∈ mails run.sent) : mail ∈ run.view.posted :=
    List.mem_append_left _ member
  have answers := View.Reaches.answers path rfl kinds
  have shows := View.Reaches.showsNonce path rfl kinds rfl
  obtain ⟨M, encoded, R, r, sk, isAnswer, content⟩ := answers _ (posted sent) isStep
  obtain ⟨r', x, y, nonneg, small, isNonce, isPoint, multiple, -⟩ :=
    shows _ (posted sent) (.inr isStep)
  -- the nonce that was answered with is the one that was shown
  obtain rfl : r = r' := by
    obtain ⟨rest, stored⟩ := isAnswer.isNonce
    cases stored.symm.trans isNonce
    rfl
  have isMessage : (createMpcContext mpcID peers preSetValue).mpcResult.byteResult .mpcM = some M :=
    (View.Reaches.byteResult_frame path (by decide)).symm.trans isAnswer.isMessage
  have isKey : ∃ rest,
      (createMpcContext mpcID peers preSetValue).mpcResult.result .mpcPrivateShare =
        some (sk :: rest) := by
    obtain ⟨rest, stored⟩ := isAnswer.isKey
    -- no signing step writes the key share
    have unwritten : ∀ kind ∈ (signKindsOf leader).drop 0,
        ResultKey.mpcPrivateShare ∉ kind.writes := by cases leader <;> decide
    rw [← kinds] at unwritten
    exact ⟨rest, (View.Reaches.result_frame path (Nat.zero_le 0) unwritten).2.symm.trans stored⟩
  refine ⟨M, encoded, R, (x, y), r, sk, isMessage, isKey, isAnswer, nonneg, small, multiple,
    content, fun other member => ⟨fun third => ?_, fun fourth => ?_⟩⟩
  -- both keys are written once, so every message speaks of the same values
  · obtain ⟨_, x', y', -, -, -, isPoint', -, isData⟩ := shows other (posted member) (.inl third)
    cases isPoint.symm.trans isPoint'
    exact isData third
  · obtain ⟨_, _, _, _, _, isAnswer', content'⟩ := answers other (posted member) fourth
    obtain ⟨rfl, rfl, rfl, rfl⟩ := isAnswer.unique isAnswer'
    rw [content, content']

private theorem pairSigned_answers :
    pairSigned.map (fun run => (mails run.sent).any fun mail => mail.2.stepID = 4) = some true := by
  decide +kernel

theorem nonce_answers_one_challenge_pair :
    ∃ run msg receiver, (receiver, msg) ∈ mails run.sent ∧ msg.stepID = 4 ∧
      pairSigned = some run ∧ ∃ M encoded R r sk, ChallengeData run.ctx.mpcResult M encoded R r sk ∧
        msg.data = [schnorrSign sk r (challengeOf signEnv.toEnv M encoded)] := by
  obtain ⟨run, followed, answers⟩ := Option.map_eq_some_iff.mp pairSigned_answers
  obtain ⟨⟨receiver, msg⟩, sent, isStep⟩ := List.any_eq_true.mp answers
  refine ⟨run, msg, receiver, sent, of_decide_eq_true isStep, followed, ?_⟩
  unfold pairSigned at followed
  split at followed
  next ctx after created =>
    have reaches : ContextRun.Reaches signEnv ⟨2, 2⟩ (fun _ _ => True) (.start after ctx) run :=
      ContextRun.reaches_of_follow (fun _ _ _ => trivial) followed
    simp only [createReqMpcSign, Outcome.bind_eq_ok_iff] at created
    obtain ⟨_, -, ⟨loaded, srv⟩, -, ctx', creates, same⟩ := created
    cases same
    obtain ⟨M, encoded, R, shown, r, sk, -, -, isAnswer, -, -, -, content, -⟩ :=
      nonce_answers_one_challenge signEnv ⟨2, 2⟩ true 7 _ _ ctx creates srv _ run reaches receiver
        msg sent (of_decide_eq_true isStep)
    exact ⟨M, encoded, R, r, sk, isAnswer, content⟩
  next => cases followed

end SchnorrMpc
