import SchnorrMpc.Step.Steps

/-!
# What steps leave as it is

A step never changes its kind, and finishing it writes only under the keys of
that kind.
-/
namespace SchnorrMpc

open Lib S256

variable {i : Nat} {accepted : Bool} {orders : Orders} {store store' : BaseMpcResult} {env : Env}
  {cfg : Config} {msg : StepMessage} {body body' : StepBody} {peers peers' : List PeerInfo}
  {random : Randomness} {preValueKey resultKey key : ResultKey} {pointer : MpcPointGenerator}
  {keys : List ResultKey} {ack : AckMpcGPKStep} {poly : RandomPolynomialValue}

/-- A step without what it has received and computed. -/
inductive StepKind where
  | request (messageType : CtxType)
  | ackMpc (messageType : CtxType)
  | ready
  | getReady
  | skShare
  | rskShare
  | gpk (preValueKeys resultKeys : List ResultKey)
  | r (preValueKeys resultKeys : List ResultKey)
  | s (preValueKeys resultKeys : List ResultKey)
  | ackGPK
  | ackRS
  deriving DecidableEq, Repr

def StepBody.kind : StepBody → StepKind
  | request req => .request req.messageType
  | ackMpc messageType => .ackMpc messageType
  | ready => .ready
  | getReady => .getReady
  | skShare _ => .skShare
  | rskShare _ => .rskShare
  | gpk ptStep => .gpk (ptStep.messages.map MpcPointGenerator.preValueKey) ptStep.resultKeys
  | r ptStep => .r (ptStep.messages.map MpcPointGenerator.preValueKey) ptStep.resultKeys
  | s msStep => .s (msStep.messages.map MpcSGenerator.preValueKey) msStep.resultKeys
  | ackGPK _ => .ackGPK
  | ackRS _ => .ackRS

/-- The keys under which finishing a step of this kind stores numbers. -/
def StepKind.writes : StepKind → List ResultKey
  | request _ | ackMpc _ => [.mpcAction]
  | skShare => [.mpcPrivateShare, .mpcPublicShare]
  | rskShare => [.rMpcPrivateShare, .rMpcPublicShare]
  | gpk _ resultKeys | r _ resultKeys | s _ resultKeys => resultKeys
  | ready | getReady | ackGPK | ackRS => []

/-- Whether finishing a step of this kind, with its key file if it has one, stores bytes. -/
def StepKind.writesBytes : StepKind → Bool
  | gpk .. | ackRS => true
  | request _ | ackMpc _ | ready | getReady | skShare | rskShare | r .. | s .. | ackGPK => false

/-! ### Several generators -/

section Generators

variable {γ ο κ : Type} (key : γ → κ)

theorem map_of_mapM {generators results : List γ} {call : γ → Go γ}
    (keeps : ∀ generator result, call generator = .ok result → key result = key generator)
    (returned : generators.mapM call = .ok results) :
    results.map key = generators.map key := by
  induction generators generalizing results with
  | nil => cases returned; rfl
  | cons generator generators ih =>
    simp only [List.mapM_cons, Outcome.bind_eq_ok_iff] at returned
    obtain ⟨result, first, rest, others, same⟩ := returned
    cases same
    rw [List.map_cons, List.map_cons, keeps generator result first, ih others]

theorem map_of_offer {exist : γ → Bool} {accept : Nat → γ → Go γ} {generators results : List γ}
    (keeps : ∀ i generator result, accept i generator = .ok result → key result = key generator)
    (returned : offer exist accept i generators = .ok (accepted, results)) :
    results.map key = generators.map key := by
  induction generators generalizing i accepted results with
  | nil => cases returned; rfl
  | cons generator generators ih =>
    unfold offer at returned
    split at returned
    · cases returned; rfl
    · simp only [Outcome.bind_eq_ok_iff] at returned
      obtain ⟨result, first, ⟨last, rest⟩, others, same⟩ := returned
      cases same
      rw [List.map_cons, List.map_cons, keeps i generator result first, ih others]

theorem map_of_calculateEach {calculate : γ → ο → Go γ} {generators results : List γ}
    {orders : List ο}
    (keeps : ∀ generator order result, calculate generator order = .ok result →
      key result = key generator)
    (returned : calculateEach calculate generators orders = .ok results) :
    results.map key = generators.map key := by
  induction generators generalizing orders results with
  | nil => cases returned; rfl
  | cons generator generators ih =>
    cases orders with
    | nil => cases returned
    | cons order orders =>
      simp only [calculateEach, Outcome.bind_eq_ok_iff] at returned
      obtain ⟨result, first, rest, others, same⟩ := returned
      cases same
      rw [List.map_cons, List.map_cons, keeps generator order result first, ih others]

theorem storeEach_frame {value : γ → List Int} {resultKeys : List ResultKey} {generators : List γ}
    (returned : storeEach value resultKeys i generators store = .ok store') :
    store'.byteResult = store.byteResult ∧
      ∀ other ∉ resultKeys, store'.result other = store.result other := by
  induction generators generalizing i store with
  | nil =>
    cases returned
    exact ⟨rfl, fun _ _ => rfl⟩
  | cons generator generators ih =>
    simp only [storeEach, Outcome.bind_eq_ok_iff, Outcome.index_eq_ok_iff] at returned
    obtain ⟨resultKey, found, rest⟩ := returned
    obtain ⟨bytes, frame⟩ := ih rest
    refine ⟨bytes, fun other unwritten => ?_⟩
    have differs : other ≠ resultKey := by
      rintro rfl
      exact unwritten (List.mem_of_getElem? found)
    rw [frame other unwritten, BaseMpcResult.result_setValue, if_neg differs]

end Generators

/-! ### Each kind of step -/

theorem MpcPointGenerator.calculateResult_key {point result : MpcPointGenerator}
    {order : Assoc Nat (Int × Int)} (returned : point.calculateResult env cfg order = .ok result) :
    result.preValueKey = point.preValueKey := by
  rw [(calculateResult_eq_ok returned).2.2]

theorem MpcSGenerator.calculateResult_key {msg result : MpcSGenerator} {order : Assoc Nat Int}
    (returned : msg.calculateResult cfg order = .ok result) :
    result.preValueKey = msg.preValueKey := by
  unfold MpcSGenerator.calculateResult at returned
  simp only at returned
  split at returned
  · cases returned
  · obtain ⟨value, -, built⟩ := (Outcome.bind_eq_ok_iff ..).mp returned
    cases built; rfl

/-- Seeds as the leader of a key generation draws them. -/
structure SeedsDrawn (peers : List PeerInfo) : Prop where
  distinct : (peers.map PeerInfo.seed).Nodup
  range : ∀ peer ∈ peers, 1 ≤ peer.seed ∧ peer.seed ≤ 0x0FFFFFE

namespace RequestMpcStep

variable {findMap : List Nat} {intn : List (Fin 0x0FFFFFE)} {req req' : RequestMpcStep}

theorem drawSeeds_drawn (drawn : drawSeeds findMap peers intn = some peers') :
    peers'.map PeerInfo.peerID = peers.map PeerInfo.peerID ∧ SeedsDrawn peers' ∧
      ∀ peer ∈ peers', peer.seed ∉ findMap := by
  fun_induction drawSeeds findMap peers intn generalizing peers' with
  | case1 =>
    cases drawn
    exact ⟨rfl, ⟨List.nodup_nil, by simp⟩, by simp⟩
  | case2 => cases drawn
  | case3 findMap peer peers n intn known ih => exact ih drawn
  | case4 findMap peer peers n intn fresh ih =>
    obtain ⟨rest, others, rfl⟩ := Option.map_eq_some_iff.mp drawn
    obtain ⟨ids, ⟨distinct, range⟩, unknown⟩ := ih others
    refine ⟨by simp [ids], ⟨List.nodup_cons.mpr ⟨?_, distinct⟩, ?_⟩, ?_⟩
    · -- the seed went into the map, so nobody behind has it
      intro again
      obtain ⟨other, member, same⟩ := List.mem_map.mp again
      exact unknown other member (same ▸ List.mem_cons_self)
    · exact List.forall_mem_cons.mpr ⟨⟨Nat.le_add_left 1 n, n.isLt⟩, range⟩
    · refine List.forall_mem_cons.mpr ⟨fresh, fun other member found => ?_⟩
      exact unknown other member (List.mem_cons_of_mem _ found)

theorem drawSeeds_isSome_iff : (drawSeeds findMap peers intn).isSome ↔
    peers.length ≤ ((intn.map fun n => n.val + 1).toFinset \ findMap.toFinset).card := by
  fun_induction drawSeeds findMap peers intn with
  | case1 => simp
  | case2 => simp
  | case3 findMap peer peers n intn known ih =>
    have inside := List.mem_toFinset.mpr known
    rw [ih, List.map_cons, List.toFinset_cons, Finset.insert_sdiff_of_mem _ inside]
  | case4 findMap peer peers n intn fresh ih =>
    have outside := mt List.mem_toFinset.mp fresh
    -- drawn again or not, the number counts once
    have once : (insert (n.val + 1) (intn.map fun n => n.val + 1).toFinset) \ findMap.toFinset =
        insert (n.val + 1)
          ((intn.map fun n => n.val + 1).toFinset \ insert (n.val + 1) findMap.toFinset) := by
      rw [Finset.insert_sdiff_of_notMem _ outside]
      ext m
      simp only [Finset.mem_insert, Finset.mem_sdiff]
      tauto
    rw [Option.isSome_map, ih, List.map_cons, List.toFinset_cons, List.toFinset_cons, once,
      Finset.card_insert_of_notMem (by simp), List.length_cons]
    omega

theorem initStep_eq_ok (inits : req.initStep peers store random = some (.ok (req', peers'))) :
    req'.messageType = req.messageType ∧ req'.message = req.message ∧
      if req.messageType = .mpcGPKLeader then drawSeeds [] peers random.intn = some peers'
      else peers' = peers := by
  unfold initStep at inits
  split at inits
  next leads =>
    obtain ⟨drawn, left, same⟩ := Option.map_eq_some_iff.mp inits
    cases same
    rw [if_pos leads]
    exact ⟨rfl, rfl, left⟩
  next signs =>
    simp only [Option.some.injEq, Outcome.bind_eq_ok_iff] at inits
    obtain ⟨_, -, _, -, _, -, _, -, built⟩ := inits
    cases built
    rw [if_neg (by simp [signs])]
    exact ⟨rfl, rfl, rfl⟩
  next notLeader _ =>
    cases inits
    rw [if_neg notLeader]
    exact ⟨rfl, rfl, rfl⟩

theorem initStep_isSome_iff : (req.initStep peers store random).isSome ↔
    (req.messageType = .mpcGPKLeader → peers.length ≤ random.intn.toFinset.card) := by
  unfold initStep
  split
  next leads =>
    have image : (random.intn.map fun n => n.val + 1).toFinset =
        random.intn.toFinset.image fun n => n.val + 1 := by
      ext seed
      simp
    have once : (random.intn.map fun n => n.val + 1).toFinset.card = random.intn.toFinset.card := by
      rw [image]
      exact Finset.card_image_of_injective _ fun a b same => Fin.ext (Nat.succ.inj same)
    rw [Option.isSome_map, drawSeeds_isSome_iff, List.toFinset_nil, Finset.sdiff_empty, once]
    simp [leads]
  next signs => simp [signs]
  next notLeader _ => exact iff_of_true rfl fun leads => absurd leads notLeader

/-- The request is one message to everybody. -/
theorem createMessage_eq_ok {peers : List PeerInfo} {out : List OutMessage}
    (created : req.createMessage peers = .ok out) :
    ∃ item, out = [item] ∧ item.msgCode = .requestMPC ∧ item.peerID = none := by
  unfold createMessage at created
  split at created
  · rw [Outcome.bind_eq_ok_iff] at created
    obtain ⟨_, -, built⟩ := created
    cases built
    exact ⟨_, rfl, rfl, rfl⟩
  · cases created
    exact ⟨_, rfl, rfl, rfl⟩

end RequestMpcStep

theorem MpcPointStep.initStep_single {pointer : MpcPointGenerator} {keys : List ResultKey}
    {store : BaseMpcResult} {after : MpcPointStep}
    (inits : MpcPointStep.initStep ⟨[pointer], keys⟩ store = .ok after) :
    ∃ value x y, store.result pointer.preValueKey = some value ∧ value[0]? = some x ∧
      value[1]? = some y ∧ after = ⟨[{ pointer with seed := (x, y) }], keys⟩ := by
  simp only [initStep, List.mapM_cons, List.mapM_nil, MpcPointGenerator.initializeFrom,
    Outcome.bind_eq_ok_iff, Outcome.index_eq_ok_iff, BaseMpcResult.getValue_eq_ok_iff] at inits
  obtain ⟨_, ⟨_, ⟨x, isX, y, isY, value, isValue, built⟩, _, nothing, listed⟩, stepped⟩ := inits
  cases built
  cases nothing
  cases listed
  cases stepped
  rw [isValue] at isX isY
  exact ⟨value, x, y, isValue, isX, isY, rfl⟩

namespace RandomPolynomialValue

variable {poly' : RandomPolynomialValue}

theorem initStep_message (inits : poly.initStep peers random = .ok poly') :
    poly'.message = poly.message := by
  unfold initStep at inits
  split at inits
  · cases inits
  · simp only [initializeFrom, Outcome.bind_eq_ok_iff] at inits
    obtain ⟨_, -, _, -, built⟩ := inits
    cases built
    rfl

/-- The sum is stored with its multiple of the base point. -/
theorem finish_eq_ok {privateKey publicKey : ResultKey} {orders : List (Assoc Nat Int)}
    (finished : poly.finish env privateKey publicKey orders store = .ok (poly', store')) :
    ∃ order rest x y, orders = order :: rest ∧ poly' = poly.calculateResult order ∧
      env.curve.scalarBaseMult (intBytes (poly'.result.getD 0)) = .ok (some (x, y)) ∧
      store' = (store.setValue privateKey [poly'.result.getD 0]).setValue publicKey [x, y] := by
  unfold finish at finished
  split at finished
  · cases finished
  next order rest =>
    obtain ⟨point, isPoint, built⟩ := (Outcome.bind_eq_ok_iff ..).mp finished
    split at built
    · cases built
    next x y =>
      cases built
      exact ⟨order, rest, x, y, rfl, rfl, isPoint, rfl⟩

end RandomPolynomialValue

namespace StepBody

theorem initStep_request {req : RequestMpcStep}
    (inits : (request req).initStep env peers store random = some (.ok (body', peers'))) :
    ∃ req', req.initStep peers store random = some (.ok (req', peers')) ∧ body' = request req' := by
  obtain ⟨returned, first, same⟩ := Option.map_eq_some_iff.mp inits
  simp only [Outcome.bind_eq_ok_iff] at same
  obtain ⟨⟨req', peers''⟩, rfl, built⟩ := same
  cases built
  exact ⟨req', first, rfl⟩

theorem exists_initStep (env : Env) (body : StepBody) (store : BaseMpcResult)
    (few : peers.length ≤ 0x0FFFFFE) :
    ∃ random : Randomness, random.Admissible ∧ (body.initStep env peers store random).isSome := by
  refine ⟨⟨.ok 0, [], List.finRange 0x0FFFFFE⟩, ⟨?_, by simp⟩, ?_⟩
  · rintro s ⟨⟩
    exact ⟨le_rfl, by decide⟩
  · cases body with
    | request req =>
      rw [initStep, Option.isSome_map, RequestMpcStep.initStep_isSome_iff]
      intro _
      rw [List.toFinset_finRange, Finset.card_univ, Fintype.card_fin]
      exact few
    | _ => rfl

theorem initStep_kind (inits : body.initStep env peers store random = some (.ok (body', peers'))) :
    body'.kind = body.kind := by
  cases body with
  | request req =>
    obtain ⟨req', first, rfl⟩ := initStep_request inits
    exact congrArg StepKind.request (RequestMpcStep.initStep_eq_ok first).1
  | gpk ptStep | r ptStep =>
    simp only [initStep, MpcPointStep.initStep, Option.some.injEq, Outcome.bind_eq_ok_iff] at inits
    obtain ⟨_, ⟨messages, mapped, built⟩, same⟩ := inits
    cases built
    cases same
    have keys := map_of_mapM MpcPointGenerator.preValueKey (fun point result returned => by
      simp only [MpcPointGenerator.initializeFrom, Outcome.bind_eq_ok_iff] at returned
      obtain ⟨_, -, _, -, _, -, built⟩ := returned
      cases built; rfl) mapped
    simp only [kind, keys]
  | s msStep =>
    simp only [initStep, MpcSStep.initStep, Option.some.injEq, Outcome.bind_eq_ok_iff] at inits
    obtain ⟨_, ⟨messages, mapped, built⟩, same⟩ := inits
    cases built
    cases same
    have keys := map_of_mapM MpcSGenerator.preValueKey (fun msg result returned => by
      simp only [MpcSGenerator.initializeFrom, Outcome.bind_eq_ok_iff] at returned
      obtain ⟨_, -, _, -, _, -, _, -, _, -, _, -, _, -, _, -, _, -, built⟩ := returned
      cases built; rfl) mapped
    simp only [kind, keys]
  | skShare poly | rskShare poly | ackGPK ack | ackRS mars =>
    simp only [initStep, Option.some.injEq, Outcome.bind_eq_ok_iff] at inits
    obtain ⟨_, -, same⟩ := inits
    cases same; rfl
  | ackMpc | ready | getReady => cases inits; rfl

theorem handleMessage_kind (handled : body.handleMessage peers msg = .ok (accepted, body')) :
    body'.kind = body.kind := by
  cases body with
  | request req =>
    cases handled
    simp only [kind]
    split <;> rfl
  | gpk ptStep | r ptStep =>
    simp only [handleMessage, MpcPointStep.handleMessage, Outcome.bind_eq_ok_iff] at handled
    obtain ⟨⟨accepted', ptStep'⟩, ⟨_, -, _, -, offered⟩, same⟩ := handled
    cases same
    split at offered
    · cases offered; rfl
    · split at offered
      · cases offered; rfl
      · simp only [Outcome.bind_eq_ok_iff] at offered
        obtain ⟨⟨_, messages⟩, taken, built⟩ := offered
        cases built
        have keys := map_of_offer MpcPointGenerator.preValueKey (fun i point result returned => by
          simp only [Outcome.bind_eq_ok_iff] at returned
          obtain ⟨_, -, _, -, built⟩ := returned
          cases built; rfl) taken
        simp only [kind, keys]
  | s msStep =>
    simp only [handleMessage, MpcSStep.handleMessage, Outcome.bind_eq_ok_iff] at handled
    obtain ⟨⟨accepted', msStep'⟩, offered, same⟩ := handled
    cases same
    split at offered
    · cases offered; rfl
    · split at offered
      · cases offered; rfl
      · simp only [Outcome.bind_eq_ok_iff] at offered
        obtain ⟨⟨_, messages⟩, taken, built⟩ := offered
        cases built
        have keys := map_of_offer MpcSGenerator.preValueKey (fun i point result returned => by
          simp only [Outcome.bind_eq_ok_iff] at returned
          obtain ⟨_, -, built⟩ := returned
          cases built; rfl) taken
        simp only [kind, keys]
  | skShare poly | rskShare poly =>
    simp only [handleMessage, Outcome.bind_eq_ok_iff] at handled
    obtain ⟨_, -, same⟩ := handled
    cases same; rfl
  | ackGPK | ackRS | ackMpc | ready | getReady => cases handled; rfl

theorem finishStep_kind
    (finishes : body.finishStep env cfg peers store orders = .ok (body', store')) :
    body'.kind = body.kind := by
  cases body with
  | gpk ptStep | r ptStep =>
    simp only [finishStep, MpcPointStep.finish, Outcome.bind_eq_ok_iff] at finishes
    obtain ⟨_, ⟨messages, calculated, _, -, built⟩, same⟩ := finishes
    cases built
    cases same
    have keys := map_of_calculateEach MpcPointGenerator.preValueKey
      (fun _ _ _ => MpcPointGenerator.calculateResult_key) calculated
    simp only [kind, keys]
  | s msStep =>
    simp only [finishStep, MpcSStep.finish, Outcome.bind_eq_ok_iff] at finishes
    obtain ⟨_, ⟨messages, calculated, _, -, built⟩, same⟩ := finishes
    cases built
    cases same
    have keys := map_of_calculateEach MpcSGenerator.preValueKey
      (fun _ _ _ => MpcSGenerator.calculateResult_key) calculated
    simp only [kind, keys]
  | skShare poly | rskShare poly | ackGPK ack | ackRS mars =>
    simp only [finishStep, Outcome.bind_eq_ok_iff] at finishes
    obtain ⟨_, -, same⟩ := finishes
    cases same; rfl
  | request | ackMpc | ready | getReady => cases finishes; rfl

section

variable (inits : body.initStep env peers store random = some (.ok (body', peers')))

include inits

/-- Only the request of a key generation changes the peers, and it changes their seeds only. -/
theorem initStep_peers :
    if body.kind = .request .mpcGPKLeader then
      peers'.map PeerInfo.peerID = peers.map PeerInfo.peerID ∧ SeedsDrawn peers'
    else peers' = peers := by
  cases body with
  | request req =>
    obtain ⟨req', first, -⟩ := initStep_request inits
    have peersOf := (RequestMpcStep.initStep_eq_ok first).2.2
    simp only [kind, StepKind.request.injEq]
    split at peersOf
    next leads =>
      obtain ⟨ids, drawn, -⟩ := RequestMpcStep.drawSeeds_drawn peersOf
      rw [if_pos leads]
      exact ⟨ids, drawn⟩
    next other =>
      rw [if_neg other]
      exact peersOf
  | gpk | r | s | skShare | rskShare | ackGPK | ackRS =>
    simp only [initStep, Option.some.injEq, Outcome.bind_eq_ok_iff] at inits
    obtain ⟨_, -, same⟩ := inits
    cases same
    rfl
  | ackMpc | ready | getReady =>
    cases inits
    rfl

theorem initStep_peerIDs : peers'.map PeerInfo.peerID = peers.map PeerInfo.peerID := by
  have changed := initStep_peers inits
  split at changed
  · exact changed.1
  · rw [changed]

end

/-- Finishing a step leaves the numbers under other keys, and only the acknowledgement of a
signature stores bytes. -/
theorem finishStep_frame
    (finishes : body.finishStep env cfg peers store orders = .ok (body', store')) :
    (∀ key ∉ body.kind.writes, store'.result key = store.result key) ∧
      (body.kind ≠ .ackRS → store'.byteResult = store.byteResult) := by
  cases body with
  | gpk ptStep | r ptStep =>
    simp only [finishStep, MpcPointStep.finish, Outcome.bind_eq_ok_iff] at finishes
    obtain ⟨_, ⟨messages, -, _, stored, built⟩, same⟩ := finishes
    cases built
    cases same
    obtain ⟨bytes, frame⟩ := storeEach_frame stored
    exact ⟨frame, fun _ => bytes⟩
  | s msStep =>
    simp only [finishStep, MpcSStep.finish, Outcome.bind_eq_ok_iff] at finishes
    obtain ⟨_, ⟨messages, -, _, stored, built⟩, same⟩ := finishes
    cases built
    cases same
    obtain ⟨bytes, frame⟩ := storeEach_frame stored
    exact ⟨frame, fun _ => bytes⟩
  | skShare poly | rskShare poly =>
    simp only [finishStep, Outcome.bind_eq_ok_iff] at finishes
    obtain ⟨⟨poly', after⟩, finished, same⟩ := finishes
    cases same
    obtain ⟨_, _, x, y, -, -, -, rfl⟩ := RandomPolynomialValue.finish_eq_ok finished
    refine ⟨fun key unwritten => ?_, fun _ => rfl⟩
    simp only [kind, StepKind.writes, List.mem_cons, List.not_mem_nil, or_false, not_or]
      at unwritten
    simp [unwritten]
  | ackGPK ack =>
    simp only [finishStep, Outcome.bind_eq_ok_iff] at finishes
    obtain ⟨_, -, same⟩ := finishes
    cases same
    exact ⟨fun _ _ => rfl, fun _ => rfl⟩
  | ackRS mars =>
    simp only [finishStep, MpcAckRSStep.finish, Outcome.bind_eq_ok_iff] at finishes
    obtain ⟨_, ⟨_, -, _, -, built⟩, same⟩ := finishes
    cases built
    cases same
    exact ⟨fun _ _ => rfl, fun other => absurd rfl other⟩
  | request req | ackMpc messageType =>
    cases finishes
    refine ⟨fun key unwritten => ?_, fun _ => rfl⟩
    have differs : key ≠ .mpcAction := by simpa [kind, StepKind.writes] using unwritten
    simp [differs]
  | ready | getReady =>
    cases finishes
    exact ⟨fun _ _ => rfl, fun _ => rfl⟩

/-! ### Steps by their kind -/

theorem eq_ackRS (isKind : body.kind = .ackRS) : ∃ mars, body = .ackRS mars := by
  cases body with
  | ackRS mars => exact ⟨mars, rfl⟩
  | _ => cases isKind

theorem eq_s (isKind : body.kind = .s [preValueKey] [resultKey]) :
    ∃ msg, body = .s ⟨[msg], [resultKey]⟩ := by
  cases body with
  | s msStep =>
    obtain ⟨messages, resultKeys⟩ := msStep
    simp only [kind, StepKind.s.injEq] at isKind
    obtain ⟨keys, rfl⟩ := isKind
    match messages, keys with
    | [msg], _ => exact ⟨msg, rfl⟩
  | _ => cases isKind

theorem eq_gpk (isKind : body.kind = .gpk [preValueKey] [resultKey]) :
    ∃ pointer, body = .gpk ⟨[pointer], [resultKey]⟩ ∧ pointer.preValueKey = preValueKey := by
  cases body with
  | gpk ptStep =>
    obtain ⟨messages, resultKeys⟩ := ptStep
    simp only [kind, StepKind.gpk.injEq] at isKind
    obtain ⟨keys, rfl⟩ := isKind
    match messages, keys with
    | [pointer], keys => exact ⟨pointer, rfl, by simpa using keys⟩
  | _ => cases isKind

theorem initStep_gpk
    (inits : (StepBody.gpk ⟨[pointer], keys⟩).initStep env peers store random =
      some (.ok (body', peers'))) :
    ∃ value x y, store.result pointer.preValueKey = some value ∧ value[0]? = some x ∧
      value[1]? = some y ∧ body' = .gpk ⟨[{ pointer with seed := (x, y) }], keys⟩ := by
  simp only [initStep, Option.some.injEq, Outcome.bind_eq_ok_iff] at inits
  obtain ⟨_, stepped, same⟩ := inits
  obtain ⟨value, x, y, isValue, isX, isY, rfl⟩ := MpcPointStep.initStep_single stepped
  cases same
  exact ⟨value, x, y, isValue, isX, isY, rfl⟩

/-- A point is filed under the seed of its sender, once. -/
theorem handleMessage_gpk
    (handled : (StepBody.gpk ⟨[pointer], keys⟩).handleMessage peers msg = .ok (accepted, body')) :
    ∃ message, body' = .gpk ⟨[{ pointer with message }], keys⟩ ∧
      (message = pointer.message ∨ ∃ x y, msg.data = [x, y] ∧ getPeerSeed peers msg.peerID ≠ 0 ∧
        message = Assoc.assign pointer.message (getPeerSeed peers msg.peerID) (x, y)) := by
  simp only [handleMessage, MpcPointStep.handleMessage, Outcome.bind_eq_ok_iff,
    Outcome.index_eq_ok_iff] at handled
  obtain ⟨⟨_, ptStep⟩, ⟨x, isX, y, isY, offered⟩, same⟩ := handled
  cases same
  split at offered
  · cases offered
    exact ⟨pointer.message, rfl, .inl rfl⟩
  next seeded =>
    split at offered
    · cases offered
      exact ⟨pointer.message, rfl, .inl rfl⟩
    next two =>
      simp only [offer, Outcome.bind_eq_ok_iff] at offered
      obtain ⟨⟨_, messages⟩, taken, built⟩ := offered
      cases built
      split at taken
      · cases taken
        exact ⟨pointer.message, rfl, .inl rfl⟩
      · simp only [Outcome.bind_eq_ok_iff, Outcome.index_eq_ok_iff] at taken
        obtain ⟨_, ⟨_, isX', _, isY', filed⟩, _, nothing, listed⟩ := taken
        cases filed
        cases nothing
        cases listed
        refine ⟨_, rfl, .inr ⟨x, y, ?_, seeded, ?_⟩⟩
        · match data : msg.data, two with
          | [a, b], _ =>
            rw [data] at isX isY
            cases isX
            cases isY
            rfl
          | [], two | [_], two | _ :: _ :: _ :: _, two =>
            exact absurd two (by simp [MpcPointStep.signNum])
        · rw [isX] at isX'
          rw [isY] at isY'
          cases isX'
          cases isY'
          rfl

theorem eq_ackGPK (isKind : body.kind = .ackGPK) : ∃ ack, body = .ackGPK ack := by
  cases body with
  | ackGPK ack => exact ⟨ack, rfl⟩
  | _ => cases isKind

theorem initStep_ackGPK
    (inits : (StepBody.ackGPK ack).initStep env peers store random = some (.ok (body', peers'))) :
    ∃ mpcGPK, store.byteResult .mpcContextResult = some mpcGPK ∧
      body' = .ackGPK { ack with mpcGPK } := by
  simp only [initStep, AckMpcGPKStep.initStep, Option.some.injEq, Outcome.bind_eq_ok_iff,
    BaseMpcResult.getByteValue_eq_ok_iff] at inits
  obtain ⟨_, ⟨mpcGPK, isKey, built⟩, same⟩ := inits
  cases built
  cases same
  exact ⟨mpcGPK, isKey, rfl⟩

theorem handleMessage_ackGPK
    (handled : (StepBody.ackGPK ack).handleMessage peers msg = .ok (accepted, body')) :
    ∃ ack', ack.handleMessage msg = (accepted, ack') ∧ body' = .ackGPK ack' := by
  cases handled
  exact ⟨_, rfl, rfl⟩

theorem finishStep_ackGPK
    (finishes : (StepBody.ackGPK ack).finishStep env cfg peers store orders = .ok (body', store')) :
    ack.check peers = .ok () ∧ body' = .ackGPK ack ∧ store' = store := by
  simp only [finishStep, Outcome.bind_eq_ok_iff] at finishes
  obtain ⟨_, checked, same⟩ := finishes
  cases same
  exact ⟨checked, rfl, rfl⟩

theorem eq_skShare (isKind : body.kind = .skShare) : ∃ poly, body = .skShare poly := by
  cases body with
  | skShare poly => exact ⟨poly, rfl⟩
  | _ => cases isKind

theorem finishStep_gpk (iterates : (StepBody.gpk ⟨[pointer], [key]⟩).Iterates orders)
    (finishes : (StepBody.gpk ⟨[pointer], [key]⟩).finishStep env cfg peers store orders =
      .ok (body', store')) :
    ∃ order pointer', orders.points = [order] ∧ order.Perm pointer.message ∧
      pointer.calculateResult env cfg order = .ok pointer' ∧
      body' = .gpk ⟨[pointer'], [key]⟩ ∧
      store' = store.setValue key [pointer'.result.1, pointer'.result.2] := by
  obtain ⟨order, isOrder, perm⟩ : ∃ order, orders.points = [order] ∧
      order.Perm pointer.message := by
    simp only [Iterates, List.forall₂_cons_right_iff, List.forall₂_nil_right_iff] at iterates
    obtain ⟨order, _, perm, rfl, same⟩ := iterates
    exact ⟨order, same, perm⟩
  simp only [finishStep, MpcPointStep.finish, Outcome.bind_eq_ok_iff, isOrder] at finishes
  obtain ⟨_, ⟨messages, calculated, _, stored, built⟩, same⟩ := finishes
  cases built
  cases same
  simp only [calculateEach, Outcome.bind_eq_ok_iff] at calculated
  obtain ⟨pointer', first, _, none, built⟩ := calculated
  cases none
  cases built
  cases stored
  exact ⟨order, pointer', isOrder, perm, first, rfl, rfl⟩

theorem finishStep_s {msg : MpcSGenerator}
    (finishes : (StepBody.s ⟨[msg], [key]⟩).finishStep env cfg peers store orders =
      .ok (body', store')) :
    ∃ order msg', msg.calculateResult cfg order = .ok msg' ∧ body' = .s ⟨[msg'], [key]⟩ ∧
      store' = store.setValue key [msg'.result] := by
  simp only [finishStep, MpcSStep.finish, Outcome.bind_eq_ok_iff] at finishes
  obtain ⟨_, ⟨messages, calculated, _, stored, built⟩, same⟩ := finishes
  cases built
  cases same
  cases isOrders : orders.scalars with
  | nil =>
    rw [isOrders] at calculated
    cases calculated
  | cons order rest =>
    rw [isOrders] at calculated
    simp only [calculateEach, Outcome.bind_eq_ok_iff] at calculated
    obtain ⟨msg', first, _, none, built⟩ := calculated
    cases none
    cases built
    cases stored
    exact ⟨order, msg', first, rfl, rfl⟩

end StepBody

theorem RandomPolynomialValue.createMessage_eq_ok {out : List OutMessage}
    (created : poly.createMessage peers = .ok out) :
    List.Forall₂ (fun (entry : PeerInfo × Nat) item => ∃ value,
      poly.polyValue[entry.2]? = some value ∧
      item = ⟨.mpcMessage, some entry.1.peerID, none, [value], []⟩) peers.zipIdx out := by
  unfold createMessage at created
  generalize peers.zipIdx = entries at created ⊢
  induction entries generalizing out with
  | nil =>
    cases created
    exact .nil
  | cons entry entries ih =>
    simp only [List.mapM_cons, Outcome.bind_eq_ok_iff, Outcome.index_eq_ok_iff] at created
    obtain ⟨item, ⟨value, isValue, isItem⟩, items, others, same⟩ := created
    cases isItem
    cases same
    exact .cons ⟨value, isValue, rfl⟩ (ih others)

/-- A share is filed once for each seed. -/
theorem RandomPolynomialValue.handleMessage_cases {poly' : RandomPolynomialValue}
    (handled : poly.handleMessage peers msg = .ok (accepted, poly')) :
    (accepted = false ∧ poly' = poly ∧
        (poly.message.lookup (getPeerSeed peers msg.peerID)).isSome = true) ∨
      (accepted = true ∧ poly.message.lookup (getPeerSeed peers msg.peerID) = none ∧
        ∃ value, msg.data[0]? = some value ∧ poly' = { poly with
          message := Assoc.assign poly.message (getPeerSeed peers msg.peerID) value }) := by
  unfold RandomPolynomialValue.handleMessage at handled
  simp only at handled
  split at handled
  next value found =>
    cases handled
    exact .inl ⟨rfl, rfl, by rw [found]; rfl⟩
  next missing =>
    rw [Outcome.bind_eq_ok_iff] at handled
    obtain ⟨value, isValue, built⟩ := handled
    cases built
    exact .inr ⟨rfl, missing, value, (Outcome.index_eq_ok_iff ..).mp isValue, rfl⟩

end SchnorrMpc
