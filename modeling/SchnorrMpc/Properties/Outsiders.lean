import SchnorrMpc.Properties.Counting
import SchnorrMpc.Properties.HonestSigning

/-!
# Messages of nodes that are no peers

The steps differ in what they do with a message whose sender is not one of
their peers. Some refuse it, some file it under seed zero, some count it.
-/
namespace SchnorrMpc

open Lib S256

/-- Handling the message at the head of the channel leaves the data, the counter and the channel
to the main process as they are. -/
def Step.Unmoved (peers : List PeerInfo) (step : Step) : Prop :=
  ∃ next, step.handleMessage peers = some (.ok next) ∧ next.body = step.body ∧
    next.waiting = step.waiting ∧ next.finish = step.finish

/-- When the handler of a step refuses a message of a node that is no peer. -/
def StepBody.RefusesOutsider (body : StepBody) (msg : StepMessage) : Prop :=
  match body with
  -- an id that has been heard is refused, whoever it is
  | request req => (req.message.lookup msg.peerID).isSome = true
  | ackGPK ack => (ack.message.lookup msg.peerID).isSome = true
  | ackRS mars => (mars.message.lookup msg.peerID).isSome = true
  -- all nodes without a seed share one place
  | skShare poly | rskShare poly => (poly.message.lookup 0).isSome = true
  -- a node without a seed is refused, after two integers have been logged
  | gpk _ | r _ => 2 ≤ msg.data.length
  | s _ => True
  | ackMpc _ | ready | getReady => False

/-- When a message of a node that is no peer has no effect on a step. -/
def Step.IgnoresOutsider (step : Step) (msg : StepMessage) : Prop :=
  msg.stepId ≠ step.stepId ∨ step.waiting ≤ 0 ∨ step.body.RefusesOutsider msg

/-! ### Handlers -/

section

variable {peers : List PeerInfo} {msg : StepMessage}
  (outside : msg.peerID ∉ peers.map PeerInfo.peerID)

include outside

private theorem share_refuses_iff (poly : RandomPolynomialValue) :
    poly.handleMessage peers msg = .ok (false, poly) ↔
      (poly.message.lookup 0).isSome = true := by
  have seed := getPeerSeed_of_not_mem outside
  constructor
  · intro refused
    rcases RandomPolynomialValue.handleMessage_cases refused with ⟨-, -, found⟩ | ⟨absurdity, -⟩
    · rwa [seed] at found
    · cases absurdity
  · intro found
    obtain ⟨value, found⟩ := Option.isSome_iff_exists.mp found
    unfold RandomPolynomialValue.handleMessage
    simp only [seed, found]

private theorem point_refuses_iff (ptStep : MpcPointStep) :
    ptStep.handleMessage peers msg = .ok (false, ptStep) ↔ 2 ≤ msg.data.length := by
  have seed := getPeerSeed_of_not_mem outside
  unfold MpcPointStep.handleMessage
  simp only [seed, if_true]
  match msg.data with
  | [] | [_] => simp [Outcome.index]
  | x :: y :: rest => simp [Outcome.index]

/-- A node that is no peer is refused without a trace under this condition, and only then. -/
theorem StepBody.handleMessage_outsider (body : StepBody) :
    body.handleMessage peers msg = .ok (false, body) ↔ body.RefusesOutsider msg := by
  cases body with
  | request req =>
    simp only [handleMessage, RequestMpcStep.handleMessage, RefusesOutsider]
    split
    next found => simp [found]
    next missing => simp [missing]
  | ackGPK ack =>
    simp only [handleMessage, AckMpcGPKStep.handleMessage, RefusesOutsider]
    split
    next found => simp [found]
    next missing => simp [missing]
  | ackRS mars =>
    simp only [handleMessage, MpcAckRSStep.handleMessage, RefusesOutsider]
    split
    next found => simp [found]
    next missing => simp [missing]
  | ackMpc | ready | getReady => simp [handleMessage, RefusesOutsider]
  | skShare poly | rskShare poly =>
    rw [RefusesOutsider, ← share_refuses_iff outside poly]
    simp only [handleMessage, Outcome.bind_eq_ok_iff]
    constructor
    · rintro ⟨⟨accepted, poly'⟩, handled, same⟩
      cases same
      exact handled
    · intro handled
      exact ⟨_, handled, rfl⟩
  | gpk ptStep | r ptStep =>
    rw [RefusesOutsider, ← point_refuses_iff outside ptStep]
    simp only [handleMessage, Outcome.bind_eq_ok_iff]
    constructor
    · rintro ⟨⟨accepted, ptStep'⟩, handled, same⟩
      cases same
      exact handled
    · intro handled
      exact ⟨_, handled, rfl⟩
  | s msStep =>
    have seed := getPeerSeed_of_not_mem outside
    simp [handleMessage, MpcSStep.handleMessage, seed, RefusesOutsider]

/-- The whole round: nothing moves exactly when the message is ignored or refused. -/
theorem Step.unmoved_iff {step : Step} {rest : List (Option StepMessage)}
    (loops : step.looping = true) (head : step.msgChan = some msg :: rest) :
    step.Unmoved peers ↔ step.IgnoresOutsider msg := by
  constructor
  · rintro ⟨next, handled, sameBody, sameWaiting, -⟩
    cases (handleMessage_eq_ok_iff loops head).mp handled with
    | ignored idle => exact idle.elim .inl (fun done => .inr (.inl done))
    | refused same waits taken =>
      simp only at sameBody
      rw [sameBody] at taken
      exact .inr (.inr ((StepBody.handleMessage_outsider outside _).mp taken))
    | accepted same waits taken =>
      simp only at sameWaiting
      omega
    | last same waits room taken =>
      simp only at sameWaiting
      omega
  · intro ignores
    by_cases idle : msg.stepId ≠ step.stepId ∨ step.waiting ≤ 0
    · exact ⟨_, (handleMessage_eq_ok_iff loops head).mpr (.ignored idle), rfl, rfl, rfl⟩
    · have refuses : step.body.RefusesOutsider msg := by
        rcases ignores with other | done | refuses
        · exact absurd (.inl other) idle
        · exact absurd (.inr done) idle
        · exact refuses
      have taken := (StepBody.handleMessage_outsider outside _).mpr refuses
      exact ⟨_, (handleMessage_eq_ok_iff loops head).mpr (.refused (by omega) (by omega) taken),
        rfl, rfl, rfl⟩

end

/-! ### The private share -/

/-- Shares of distinct listed peers, which are all that the step has filed. -/
structure Contributions (peers : List PeerInfo) (msgs contributions : List StepMessage)
    (poly : RandomPolynomialValue) : Prop where
  handled : contributions.Sublist msgs
  distinct : (contributions.map StepMessage.peerID).Nodup
  listed : ∀ msg ∈ contributions, msg.peerID ∈ peers.map PeerInfo.peerID
  filed : poly.message =
    contributions.map (fun msg => (getPeerSeed peers msg.peerID, msg.data.getD 0 0))

/-- A share that is accepted from a listed peer is one more contribution. -/
theorem Contributions.accept {peers : List PeerInfo} {msgs contributions : List StepMessage}
    {poly : RandomPolynomialValue} {msg : StepMessage} {value : Int}
    (before : Contributions peers msgs contributions poly)
    (listed : msg.peerID ∈ peers.map PeerInfo.peerID)
    (missing : poly.message.lookup (getPeerSeed peers msg.peerID) = none)
    (isValue : msg.data[0]? = some value) :
    Contributions peers (msgs ++ [msg]) (contributions ++ [msg]) { poly with
      message := Assoc.assign poly.message (getPeerSeed peers msg.peerID) value } := by
  have fresh : msg.peerID ∉ contributions.map StepMessage.peerID := by
    intro heard
    obtain ⟨other, member, same⟩ := List.mem_map.mp heard
    rw [before.filed, List.lookup_eq_none_iff] at missing
    have differs := missing _ (List.mem_map_of_mem member)
    simp [same] at differs
  refine ⟨before.handled.append (List.Sublist.refl [msg]), ?_, ?_, ?_⟩
  · rw [List.map_append]
    exact before.distinct.append (List.nodup_singleton _) (by simpa using fresh)
  · intro other member
    rcases List.mem_append.mp member with old | new
    · exact before.listed other old
    · rw [List.mem_singleton.mp new]
      exact listed
  · have first : msg.data.getD 0 0 = value := by
      rw [List.getD_eq_getElem?_getD, isValue, Option.getD_some]
    have added := Assoc.assign_of_absent missing value
    rw [before.filed] at added
    simp only [before.filed, added, List.map_append, List.map_cons, List.map_nil, first]

theorem Contributions.later {peers : List PeerInfo} {msgs contributions : List StepMessage}
    {poly : RandomPolynomialValue} (before : Contributions peers msgs contributions poly)
    (msg : StepMessage) : Contributions peers (msgs ++ [msg]) contributions poly :=
  ⟨before.handled.trans (List.sublist_append_left msgs [msg]), before.distinct, before.listed,
    before.filed⟩

/-- The step shares a polynomial, and has filed nothing but contributions. -/
def SharesAt (peers : List PeerInfo) (msgs : List StepMessage) (step : Step) : Prop :=
  ∃ poly contributions, step.body = .skShare poly ∧ Contributions peers msgs contributions poly

/-- A message of a listed peer, or one that has no effect. -/
def Harmless (peers : List PeerInfo) (step : Step) (msg : StepMessage) : Prop :=
  msg.peerID ∈ peers.map PeerInfo.peerID ∨ step.IgnoresOutsider msg

theorem SharesAt.round {peers : List PeerInfo} {msgs : List StepMessage} {step next : Step}
    {msg : StepMessage} {rest : List (Option StepMessage)} (before : SharesAt peers msgs step)
    (harmless : Harmless peers step msg) (round : Step.Round peers step msg rest next) :
    SharesAt peers (msgs ++ [msg]) next := by
  obtain ⟨poly, contributions, body, filed⟩ := before
  -- what the handler of the polynomial has returned
  have taken {accepted : Bool} {body' : StepBody}
      (handled : step.body.handleMessage peers msg = .ok (accepted, body')) :
      ∃ poly', poly.handleMessage peers msg = .ok (accepted, poly') ∧ body' = .skShare poly' := by
    rw [body] at handled
    simp only [StepBody.handleMessage, Outcome.bind_eq_ok_iff] at handled
    obtain ⟨⟨_, poly'⟩, first, same⟩ := handled
    cases same
    exact ⟨poly', first, rfl⟩
  -- an accepted message comes from a listed peer
  have accept {body' : StepBody} (same : msg.stepId = step.stepId) (waits : 0 < step.waiting)
      (handled : step.body.handleMessage peers msg = .ok (true, body')) :
      ∃ poly', body' = .skShare poly' ∧
        Contributions peers (msgs ++ [msg]) (contributions ++ [msg]) poly' := by
    obtain ⟨poly', first, rfl⟩ := taken handled
    rcases RandomPolynomialValue.handleMessage_cases first with
      ⟨absurdity, -⟩ | ⟨-, missing, value, isValue, rfl⟩
    · cases absurdity
    · refine ⟨_, rfl, filed.accept ?_ missing isValue⟩
      by_contra outside
      rcases harmless with listed | other | done | refuses
      · exact outside listed
      · exact other same
      · omega
      · rw [← StepBody.handleMessage_outsider outside, handled] at refuses
        cases refuses
  cases round with
  | ignored => exact ⟨poly, contributions, body, filed.later msg⟩
  | refused same waits handled =>
    obtain ⟨poly', first, rfl⟩ := taken handled
    rcases RandomPolynomialValue.handleMessage_cases first with
      ⟨-, rfl, -⟩ | ⟨absurdity, -⟩
    · exact ⟨_, contributions, rfl, filed.later msg⟩
    · cases absurdity
  | accepted same waits handled =>
    obtain ⟨poly', isBody, more⟩ := accept same (by omega) handled
    exact ⟨poly', _, isBody, more⟩
  | last same waits room handled =>
    obtain ⟨poly', isBody, more⟩ := accept same (by omega) handled
    exact ⟨poly', _, isBody, more⟩

theorem SharesAt.initStep {env : Env} {peers : List PeerInfo} {msgs : List StepMessage}
    {step : Step} {store : BaseMpcResult} {random : Randomness} {body : StepBody}
    (before : SharesAt peers msgs step)
    (inits : step.body.initStep env peers store random = some (.ok (body, peers))) :
    SharesAt peers msgs { step with body } := by
  obtain ⟨poly, contributions, isBody, filed⟩ := before
  rw [isBody] at inits
  simp only [StepBody.initStep, Option.some.injEq, Outcome.bind_eq_ok_iff] at inits
  obtain ⟨poly', drawn, same⟩ := inits
  cases same
  exact ⟨_, contributions, rfl, filed.handled, filed.distinct, filed.listed,
    (RandomPolynomialValue.initStep_message drawn).trans filed.filed⟩

theorem SharesAt.of_loops {peers : List PeerInfo} {start step : Step}
    {poly : RandomPolynomialValue} (isShare : start.body = .skShare poly)
    (empty : poly.message = []) {msgs : List StepMessage}
    (run : Step.Loops peers (Harmless peers) start msgs step) : SharesAt peers msgs step := by
  refine run.invariant ?_ ?_ ?_ ?_
  · exact ⟨poly, [], isShare, List.Sublist.refl _, List.nodup_nil, by simp, empty⟩
  · rintro msgs step msgChan ⟨poly, contributions, body, before⟩
    exact ⟨poly, contributions, body, before⟩
  · intro msgs step env store random body before inits
    exact before.initStep inits
  · intro msgs step msg rest next before harmless round
    exact before.round harmless round

theorem foldl_add_eq_sum (entries : Assoc Nat Int) (start : Int) :
    entries.foldl (fun (result : Int) entry => (result + entry.2) % N) (start % N) =
      (start + (entries.map Prod.snd).sum) % N := by
  induction entries generalizing start with
  | nil => simp
  | cons entry entries ih =>
    rw [List.foldl_cons, Int.emod_add_emod, ih, List.map_cons, List.sum_cons, add_assoc]

/-- The share that the step stores is the sum of what has been filed. -/
theorem finishStep_privateShare {env : Env} {cfg : Config} {poly : RandomPolynomialValue}
    {body : StepBody} {peers : List PeerInfo} {store store' : BaseMpcResult} {orders : Orders}
    (iterates : (StepBody.skShare poly).Iterates orders)
    (finishes : (StepBody.skShare poly).finishStep env cfg peers store orders =
      .ok (body, store')) :
    store'.result .mpcPrivateShare = some [(poly.message.map Prod.snd).sum % N] := by
  obtain ⟨order, isOrder, perm⟩ := iterates
  have value : order.foldl (fun (result : Int) entry => (result + entry.2) % N) 0 =
      (poly.message.map Prod.snd).sum % N := by
    have summed := foldl_add_eq_sum order 0
    rwa [Int.zero_emod, zero_add, (perm.map Prod.snd).sum_eq] at summed
  simp only [StepBody.finishStep, isOrder, Outcome.bind_eq_ok_iff] at finishes
  obtain ⟨⟨poly', after⟩, finished, same⟩ := finishes
  cases same
  obtain ⟨_, _, x, y, listed, isSum, -, rfl⟩ := RandomPolynomialValue.finish_eq_ok finished
  cases listed
  simp [isSum, RandomPolynomialValue.calculateResult, value]

/-- A node that is no peer has no effect exactly under the condition, in every state of every step.
In every run in which all their messages meet it, the private share is the sum of contributions of
distinct peers. -/
theorem outsiders_without_effect_iff (peers : List PeerInfo) :
    (∀ (step : Step) (msg : StepMessage) (rest : List (Option StepMessage)),
      step.looping = true → step.msgChan = some msg :: rest →
      msg.peerID ∉ peers.map PeerInfo.peerID →
      (step.Unmoved peers ↔ step.IgnoresOutsider msg)) ∧
    ∀ (start step : Step) (poly poly' : RandomPolynomialValue)
      (msgs : List StepMessage) (env : Env) (cfg : Config) (store store' : BaseMpcResult)
      (orders : Orders) (body : StepBody),
      start.body = .skShare poly → poly.message = [] →
      Step.Loops peers (Harmless peers) start msgs step → step.body = .skShare poly' →
      step.body.Iterates orders →
      step.body.finishStep env cfg peers store orders = .ok (body, store') →
      ∃ contributions : List StepMessage, contributions.Sublist msgs ∧
        (contributions.map StepMessage.peerID).Nodup ∧
        (∀ msg ∈ contributions, msg.peerID ∈ peers.map PeerInfo.peerID) ∧
        store'.result .mpcPrivateShare =
          some [(contributions.map fun msg => msg.data.getD 0 0).sum % N] := by
  constructor
  · intro step msg rest loops head outside
    exact Step.unmoved_iff outside loops head
  · intro start step poly poly' msgs env cfg store store' orders body isShare empty run isBody
      iterates finishes
    obtain ⟨poly'', contributions, isBody', filed⟩ := SharesAt.of_loops isShare empty run
    cases isBody.symm.trans isBody'
    rw [isBody] at iterates finishes
    refine ⟨contributions, filed.handled, filed.distinct, filed.listed, ?_⟩
    rw [finishStep_privateShare iterates finishes, filed.filed, List.map_map]
    rfl

/-! ### Two peers and a third node -/

namespace OutsiderSample

open CountingSample HonestRun

def start : Step := { shareStep with waiting := 2, looping := true }

/-- The step after two shares, filed under these seeds. -/
def done (filed : Assoc Nat Int) : Step :=
  { start with body := .skShare ⟨[0, 0], filed, [0, 0], none⟩, waiting := 0, finish := [none] }

def early : StepMessage := ⟨3, [7], [], 3⟩

theorem finishStep_done (filed : Assoc Nat Int) (sum : (filed.map Prod.snd).sum = 3) :
    ∃ body store', (done filed).body.finishStep twoNodeEnv twoNodeConfig peers .create
      ⟨[filed], []⟩ = .ok (body, store') := by
  have value : filed.foldl (fun (result : Int) entry => (result + entry.2) % N) 0 = 3 := by
    have summed := foldl_add_eq_sum filed 0
    rw [Int.zero_emod, zero_add, sum] at summed
    exact summed
  have point : twoNodeEnv.curve.scalarBaseMult (intBytes 3) = .ok (twoNodeTable.coords 3) := by
    decide +kernel
  simp only [done, StepBody.finishStep, RandomPolynomialValue.finish,
    RandomPolynomialValue.calculateResult, value, Option.getD_some, point]
  exact ⟨_, _, rfl⟩

end OutsiderSample

open CountingSample OutsiderSample HonestRun in
/-- A message of a third node for another step falls between the shares of the two peers. -/
theorem outsiders_without_effect_shares :
    ({ start with msgChan := [some early] } : Step).Unmoved peers ∧
      ∃ body store', (done [(5, 1), (6, 2)]).body.finishStep twoNodeEnv twoNodeConfig peers .create
          ⟨[[(5, 1), (6, 2)]], []⟩ = .ok (body, store') ∧
        ∃ contributions : List StepMessage,
          contributions.Sublist [share 1 1, early, share 2 2] ∧
          store'.result .mpcPrivateShare =
            some [(contributions.map fun msg => msg.data.getD 0 0).sum % N] := by
  obtain ⟨body, store', finishes⟩ := finishStep_done [(5, 1), (6, 2)] (by decide)
  have run : Step.Loops peers (Harmless peers) start [share 1 1, early, share 2 2]
      (done [(5, 1), (6, 2)]) := by
    refine .deliverAll rfl rfl (fun msg sent state isKind isId => ?_) (by decide +kernel)
    have either : ∀ msg ∈ [share 1 1, early, share 2 2],
        msg.peerID ∈ peers.map PeerInfo.peerID ∨ msg.stepId ≠ start.stepId := by decide +kernel
    rcases either msg sent with listed | other
    · exact .inl listed
    · exact .inr (.inl (isId ▸ other))
  constructor
  · exact ((outsiders_without_effect_iff peers).1 _ early [] rfl rfl (by decide +kernel)).mpr
      (.inl (by decide))
  · obtain ⟨contributions, handled, -, -, stored⟩ :=
      (outsiders_without_effect_iff peers).2 start _ _ _ _ _ _ _ _ _ _ rfl rfl run rfl
        ⟨_, rfl, .refl _⟩ finishes
    exact ⟨body, store', finishes, contributions, handled, stored⟩

open CountingSample OutsiderSample HonestRun in
/-- The share of a third node is filed under seed zero, counted in the place of a peer, and added to
the private share. -/
theorem outsider_share_counts :
    ∃ ctx body store', followerContext = .ok ctx ∧ shareStep ∈ ctx.mpcSteps ∧
      (share 3 2).peerID ∉ peers.map PeerInfo.peerID ∧
      [share 1 1, share 3 2].foldlM (Step.deliver peers) start = some (done [(5, 1), (0, 2)]) ∧
      (done [(5, 1), (0, 2)]).body.finishStep twoNodeEnv twoNodeConfig peers .create
        ⟨[[(5, 1), (0, 2)]], []⟩ = .ok (body, store') ∧
      store'.result .mpcPrivateShare = some [3] := by
  obtain ⟨ctx, created, member, -⟩ := followerContext_steps
  obtain ⟨body, store', finishes⟩ := finishStep_done [(5, 1), (0, 2)] (by decide)
  have share := finishStep_privateShare ⟨_, rfl, .refl _⟩ finishes
  exact ⟨ctx, body, store', created, member, by decide +kernel, by decide +kernel, finishes, share⟩

end SchnorrMpc
