import SchnorrMpc.Mpc.MessageLoop

/-!
# Counting the messages of a step

A step that tells its peers apart counts every one of them once, and keeps what
it counted. The three steps of the handshake do not tell them apart; they wait
for one message at most.
-/
namespace SchnorrMpc

open Lib

/-! ### What a step counts -/

namespace StepKind

/-- Steps that remember whom they have heard. -/
def Distinguishes : StepKind → Prop
  | ackMpc _ | ready | getReady => False
  | _ => True

/-- The integers that the handler of a message reads without looking at their number. -/
def reads : StepKind → Nat
  | skShare | rskShare => 1
  | gpk .. | r .. => 2
  | _ => 0

/-- Messages of the length that the handler asks for. -/
def Proper (kind : StepKind) (msg : StepMessage) : Prop :=
  match kind with
  | gpk .. | r .. => msg.data.length = 2
  | s .. => msg.data.length = 1
  | _ => True

instance (kind : StepKind) (msg : StepMessage) : Decidable (kind.Proper msg) := by
  cases kind <;> unfold Proper <;> infer_instance

end StepKind

/-- Whether a message is one more that counts, after those that counted before. -/
def Counts (kind : StepKind) (stepId W : Nat) (counted : List StepMessage) (msg : StepMessage) :
    Prop :=
  msg.stepId = stepId ∧ counted.length < W ∧ kind.Proper msg ∧
    msg.peerID ∉ counted.map StepMessage.peerID

instance (kind : StepKind) (stepId W : Nat) (counted : List StepMessage) (msg : StepMessage) :
    Decidable (Counts kind stepId W counted msg) := by
  unfold Counts
  infer_instance

def countRound (kind : StepKind) (stepId W : Nat) (counted : List StepMessage)
    (msg : StepMessage) : List StepMessage :=
  if Counts kind stepId W counted msg then counted ++ [msg] else counted

/-- The messages that count: the first proper one of each peer, until there are enough. -/
def counted (kind : StepKind) (stepId W : Nat) (msgs : List StepMessage) : List StepMessage :=
  msgs.foldl (countRound kind stepId W) []

/-- The data of a step is that of these messages, and nothing else. -/
def StepBody.Collected (peers : List PeerInfo) (msgs : List StepMessage) : StepBody → Prop
  | request req => req.message = msgs.map (fun msg => (msg.peerID, true))
  | ackMpc _ | ready | getReady => True
  | skShare poly | rskShare poly =>
    poly.message = msgs.map (fun msg => (getPeerSeed peers msg.peerID, msg.data.getD 0 0))
  | gpk ptStep | r ptStep =>
    ptStep.messages.map MpcPointGenerator.message = [msgs.map (fun msg =>
      (getPeerSeed peers msg.peerID, (msg.data.getD 0 0, msg.data.getD 1 0)))]
  | s msStep =>
    msStep.messages.map MpcSGenerator.message =
      [msgs.map (fun msg => (getPeerSeed peers msg.peerID, msg.data.getD 0 0))]
  | ackGPK ack =>
    ack.message = msgs.map (fun msg => (msg.peerID, true)) ∧
      ack.remoteMpcGPKs =
        msgs.filterMap (fun msg => msg.bytesData.head?.map (fun gpk => (msg.peerID, gpk)))
  | ackRS mars =>
    mars.message = msgs.map (fun msg => (msg.peerID, true)) ∧
      mars.remoteMpcR = msgs.filterMap (fun msg =>
        if 3 ≤ msg.data.length then some (msg.peerID, (msg.data.getD 1 0, msg.data.getD 2 0))
        else none) ∧
      mars.remoteMpcS = msgs.filterMap (fun msg =>
        if 3 ≤ msg.data.length then some (msg.peerID, msg.data.getD 0 0) else none)

/-- The counter, the channel and the data of a step that started with a wait for `W` peers. -/
structure ExactCount (peers : List PeerInfo) (W : Nat) (msgs : List StepMessage) (step : Step) :
    Prop where
  distinct : (msgs.map StepMessage.peerID).Nodup
  enough : msgs.length ≤ W
  waiting : step.waiting = (W : Int) - msgs.length
  finish : step.finish = if msgs.length = W then [none] else []
  collected : step.body.Collected peers msgs

/-! ### The list of those that count -/

section

variable (kind : StepKind) (stepId W : Nat)

theorem counted_append (msgs : List StepMessage) (msg : StepMessage) :
    counted kind stepId W (msgs ++ [msg]) =
      countRound kind stepId W (counted kind stepId W msgs) msg := by
  simp [counted]

theorem counted_sublist (msgs : List StepMessage) :
    (counted kind stepId W msgs).Sublist msgs := by
  induction msgs using List.reverseRecOn with
  | nil => exact List.Sublist.refl _
  | append_singleton msgs msg ih =>
    rw [counted_append, countRound]
    split
    · exact ih.append (List.Sublist.refl [msg])
    · exact ih.trans (List.sublist_append_left msgs [msg])

theorem counted_of_full {kind : StepKind} {stepId W : Nat} {msgs : List StepMessage}
    (full : (counted kind stepId W msgs).length = W) (more : List StepMessage) :
    counted kind stepId W (msgs ++ more) = counted kind stepId W msgs := by
  induction more using List.reverseRecOn with
  | nil => rw [List.append_nil]
  | append_singleton more msg ih =>
    rw [← List.append_assoc, counted_append, ih, countRound, if_neg]
    rintro ⟨-, short, -⟩
    omega

end

/-! ### Handlers -/

theorem lookup_map_isSome {α κ ν : Type} [DecidableEq κ] (items : List α) (key : α → κ)
    (value : α → ν) (wanted : κ) :
    ((items.map fun item => (key item, value item)).lookup wanted).isSome = true ↔
      wanted ∈ items.map key := by
  rw [← not_iff_not, Bool.not_eq_true, Option.isSome_eq_false_iff, Option.isNone_iff_eq_none,
    List.lookup_eq_none_iff]
  constructor
  · intro absent member
    obtain ⟨item, isItem, rfl⟩ := List.mem_map.mp member
    have differs := absent _ (List.mem_map_of_mem isItem)
    simp at differs
  · intro outside entry member
    obtain ⟨item, isItem, rfl⟩ := List.mem_map.mp member
    rw [bne_iff_ne]
    rintro rfl
    exact outside (List.mem_map_of_mem isItem)

theorem assign_filterMap {α κ ν : Type} [DecidableEq κ] {items : List α} (key : α → κ)
    {entry : α → Option (κ × ν)} (keyed : ∀ item pair, entry item = some pair → pair.1 = key item)
    {wanted : κ} (absent : wanted ∉ items.map key) (value : ν) :
    Assoc.assign (items.filterMap entry) wanted value =
      items.filterMap entry ++ [(wanted, value)] := by
  apply Assoc.assign_of_absent
  rw [List.lookup_eq_none_iff]
  intro pair member
  obtain ⟨item, isItem, made⟩ := List.mem_filterMap.mp member
  rw [bne_iff_ne]
  rintro rfl
  exact absent (List.mem_map.mpr ⟨item, isItem, (keyed item pair made).symm⟩)

theorem assign_map {α κ ν : Type} [DecidableEq κ] {items : List α} {item : α} (key : α → κ)
    {value : α → ν} (absent : key item ∉ items.map key) :
    Assoc.assign (items.map fun item => (key item, value item)) (key item) (value item) =
      (items ++ [item]).map fun item => (key item, value item) := by
  rw [List.map_append, ← List.filterMap_eq_map]
  exact assign_filterMap key (by simp) absent (value item)

/-- What a handler does with a message, given those that counted: whether it is new and proper
decides, and then its data is added. -/
def Handles (peers : List PeerInfo) (msgs : List StepMessage) (body : StepBody)
    (msg : StepMessage) : Prop :=
  ∃ body', body.handleMessage peers msg =
      .ok (decide (body.kind.Proper msg ∧ msg.peerID ∉ msgs.map StepMessage.peerID), body') ∧
    body'.Collected peers
      (if body.kind.Proper msg ∧ msg.peerID ∉ msgs.map StepMessage.peerID then msgs ++ [msg]
        else msgs)

section

variable {peers : List PeerInfo} {msgs : List StepMessage} {msg : StepMessage}

theorem handles_of_refused {body : StepBody} (collected : body.Collected peers msgs)
    (bad : ¬(body.kind.Proper msg ∧ msg.peerID ∉ msgs.map StepMessage.peerID))
    (refused : body.handleMessage peers msg = .ok (false, body)) : Handles peers msgs body msg := by
  refine ⟨body, ?_, ?_⟩
  · rw [refused, decide_eq_false bad]
  · rw [if_neg bad]
    exact collected

theorem handles_of_accepted {body body' : StepBody}
    (good : body.kind.Proper msg ∧ msg.peerID ∉ msgs.map StepMessage.peerID)
    (accepted : body.handleMessage peers msg = .ok (true, body'))
    (collected : body'.Collected peers (msgs ++ [msg])) : Handles peers msgs body msg := by
  refine ⟨body', ?_, ?_⟩
  · rw [accepted, decide_eq_true good]
  · rw [if_pos good]
    exact collected

/-! Steps that remember the ids of their peers. -/

/-- Such a step refuses the ids it remembers and takes any other message. -/
theorem handles_by_id {body : StepBody} (collected : body.Collected peers msgs)
    (proper : body.kind.Proper msg) {message : Assoc NodeID Bool}
    (isMessage : message = msgs.map (fun m => (m.peerID, true)))
    (refuses : ∀ value, message.lookup msg.peerID = some value →
      body.handleMessage peers msg = .ok (false, body))
    (accepts : message.lookup msg.peerID = none → msg.peerID ∉ msgs.map StepMessage.peerID →
      ∃ body', body.handleMessage peers msg = .ok (true, body') ∧
        body'.Collected peers (msgs ++ [msg])) : Handles peers msgs body msg := by
  have heard := lookup_map_isSome msgs StepMessage.peerID (fun _ => true) msg.peerID
  rw [← isMessage] at heard
  cases found : message.lookup msg.peerID with
  | some value =>
    have member := heard.mp (by rw [found]; rfl)
    exact handles_of_refused collected (fun good => good.2 member) (refuses value found)
  | none =>
    have fresh := heard.not.mp (by rw [found]; simp)
    obtain ⟨body', accepted, filed⟩ := accepts found fresh
    exact handles_of_accepted ⟨proper, fresh⟩ accepted filed

theorem handles_request {req : RequestMpcStep}
    (collected : (StepBody.request req).Collected peers msgs) :
    Handles peers msgs (.request req) msg := by
  refine handles_by_id collected trivial collected ?_ ?_
  · intro value found
    simp only [StepBody.handleMessage, RequestMpcStep.handleMessage, found]
  · intro missing fresh
    refine ⟨_, by simp only [StepBody.handleMessage, RequestMpcStep.handleMessage, missing]; rfl,
      ?_⟩
    have isMessage : req.message = _ := collected
    simp only [StepBody.Collected, isMessage]
    exact assign_map StepMessage.peerID fresh

theorem handles_ackGPK {ack : AckMpcGPKStep}
    (collected : (StepBody.ackGPK ack).Collected peers msgs) :
    Handles peers msgs (.ackGPK ack) msg := by
  obtain ⟨isMessage, isKeys⟩ := id collected
  refine handles_by_id collected trivial isMessage ?_ ?_
  · intro value found
    simp only [StepBody.handleMessage, AckMpcGPKStep.handleMessage, found]
  · intro missing fresh
    refine ⟨_, by simp only [StepBody.handleMessage, AckMpcGPKStep.handleMessage, missing]; rfl, ?_⟩
    simp only [StepBody.Collected, isMessage, isKeys]
    refine ⟨assign_map StepMessage.peerID fresh, ?_⟩
    rw [List.filterMap_append]
    cases bytes : msg.bytesData with
    | nil => simp [bytes]
    | cons gpk rest =>
      simp only
      rw [assign_filterMap StepMessage.peerID ?_ fresh]
      · simp [bytes]
      · intro item pair made
        obtain ⟨gpk, -, rfl⟩ := Option.map_eq_some_iff.mp made
        rfl

theorem handles_ackRS {mars : MpcAckRSStep}
    (collected : (StepBody.ackRS mars).Collected peers msgs) :
    Handles peers msgs (.ackRS mars) msg := by
  obtain ⟨isMessage, isR, isS⟩ := id collected
  refine handles_by_id collected trivial isMessage ?_ ?_
  · intro value found
    simp only [StepBody.handleMessage, MpcAckRSStep.handleMessage, found]
  · intro missing fresh
    refine ⟨_, by simp only [StepBody.handleMessage, MpcAckRSStep.handleMessage, missing]; rfl, ?_⟩
    simp only [StepBody.Collected, isMessage, isR, isS]
    refine ⟨assign_map StepMessage.peerID fresh, ?_⟩
    rw [List.filterMap_append, List.filterMap_append]
    -- the point and the scalar are filed from three numbers on
    rcases data : msg.data with _ | ⟨s, _ | ⟨x, _ | ⟨y, rest⟩⟩⟩
    case cons.cons.cons =>
      simp only
      rw [assign_filterMap StepMessage.peerID (by simp) fresh,
        assign_filterMap StepMessage.peerID (by simp) fresh]
      simp [data]
    all_goals simp [data]

/-! Steps that file what they receive under seeds. -/

theorem seed_mem_iff (seeds : (peers.map PeerInfo.seed).Nodup)
    (known : ∀ m ∈ msgs, m.peerID ∈ peers.map PeerInfo.peerID)
    (listed : msg.peerID ∈ peers.map PeerInfo.peerID) :
    getPeerSeed peers msg.peerID ∈ msgs.map (fun m => getPeerSeed peers m.peerID) ↔
      msg.peerID ∈ msgs.map StepMessage.peerID := by
  constructor
  · intro filed
    obtain ⟨m, member, same⟩ := List.mem_map.mp filed
    exact List.mem_map.mpr
      ⟨m, member, getPeerSeed_injective seeds (known m member) listed same⟩
  · intro heard
    obtain ⟨m, member, same⟩ := List.mem_map.mp heard
    exact List.mem_map.mpr ⟨m, member, by rw [same]⟩

variable (seeds : (peers.map PeerInfo.seed).Nodup)
  (known : ∀ m ∈ msgs, m.peerID ∈ peers.map PeerInfo.peerID)
  (listed : msg.peerID ∈ peers.map PeerInfo.peerID)

include seeds known listed

private theorem lookup_seed {ν : Type} (value : StepMessage → ν) :
    ((msgs.map fun m => (getPeerSeed peers m.peerID, value m)).lookup
        (getPeerSeed peers msg.peerID)).isSome = true ↔
      msg.peerID ∈ msgs.map StepMessage.peerID :=
  (lookup_map_isSome msgs (fun m => getPeerSeed peers m.peerID) value _).trans
    (seed_mem_iff seeds known listed)

private theorem assign_seed {ν : Type} (value : StepMessage → ν)
    (fresh : msg.peerID ∉ msgs.map StepMessage.peerID) :
    Assoc.assign (msgs.map fun m => (getPeerSeed peers m.peerID, value m))
        (getPeerSeed peers msg.peerID) (value msg) =
      (msgs ++ [msg]).map fun m => (getPeerSeed peers m.peerID, value m) :=
  assign_map (fun m : StepMessage => getPeerSeed peers m.peerID)
    ((seed_mem_iff seeds known listed).not.mpr fresh)

/-- The handler that the two steps of a shared polynomial have in common. -/
theorem share_handled {poly : RandomPolynomialValue}
    (isMessage : poly.message =
      msgs.map (fun m => (getPeerSeed peers m.peerID, m.data.getD 0 0)))
    (long : 1 ≤ msg.data.length) :
    if msg.peerID ∈ msgs.map StepMessage.peerID then
      poly.handleMessage peers msg = .ok (false, poly)
    else
      poly.handleMessage peers msg = .ok (true, { poly with
        message := (msgs ++ [msg]).map
          (fun m => (getPeerSeed peers m.peerID, m.data.getD 0 0)) }) := by
  have heard := lookup_seed seeds known listed (fun m => m.data.getD 0 0)
  rw [← isMessage] at heard
  unfold RandomPolynomialValue.handleMessage
  simp only
  cases found : poly.message.lookup (getPeerSeed peers msg.peerID) with
  | some value => rw [if_pos (heard.mp (by rw [found]; rfl))]
  | none =>
    have fresh := heard.not.mp (by rw [found]; simp)
    have first : msg.data[0]? = some (msg.data.getD 0 0) := by
      rw [List.getD_eq_getElem?_getD, List.getElem?_eq_getElem (by omega), Option.getD_some]
    rw [if_neg fresh, isMessage]
    simp only [Outcome.index, first, Outcome.ok_bind]
    rw [← assign_seed seeds known listed _ fresh]
    rfl

theorem handles_skShare {poly : RandomPolynomialValue}
    (collected : (StepBody.skShare poly).Collected peers msgs) (long : 1 ≤ msg.data.length) :
    Handles peers msgs (.skShare poly) msg := by
  have handled := share_handled seeds known listed collected long
  split at handled
  next heard =>
    refine handles_of_refused collected (fun good => good.2 heard) ?_
    simp only [StepBody.handleMessage, handled, Outcome.ok_bind]
    rfl
  next fresh =>
    refine handles_of_accepted ⟨trivial, fresh⟩
      (by simp only [StepBody.handleMessage, handled, Outcome.ok_bind]; rfl) ?_
    rfl

theorem handles_rskShare {poly : RandomPolynomialValue}
    (collected : (StepBody.rskShare poly).Collected peers msgs) (long : 1 ≤ msg.data.length) :
    Handles peers msgs (.rskShare poly) msg := by
  have handled := share_handled seeds known listed collected long
  split at handled
  next heard =>
    refine handles_of_refused collected (fun good => good.2 heard) ?_
    simp only [StepBody.handleMessage, handled, Outcome.ok_bind]
    rfl
  next fresh =>
    refine handles_of_accepted ⟨trivial, fresh⟩
      (by simp only [StepBody.handleMessage, handled, Outcome.ok_bind]; rfl) ?_
    rfl

variable (nonzero : ∀ peer ∈ peers, peer.seed ≠ 0)

omit seeds known in
include nonzero in
theorem getPeerSeed_ne_zero : getPeerSeed peers msg.peerID ≠ 0 := by
  obtain ⟨peer, member, -, isSeed⟩ := getPeerSeed_of_mem listed
  rw [isSeed]
  exact nonzero peer member

include nonzero

/-- The handler that the two steps of public shares have in common. -/
theorem point_handled {ptStep : MpcPointStep}
    (isMessage : ptStep.messages.map MpcPointGenerator.message = [msgs.map (fun m =>
      (getPeerSeed peers m.peerID, (m.data.getD 0 0, m.data.getD 1 0)))])
    (long : 2 ≤ msg.data.length) :
    if msg.data.length = 2 ∧ msg.peerID ∉ msgs.map StepMessage.peerID then
      ∃ pointer : MpcPointGenerator,
        ptStep.handleMessage peers msg = .ok (true, { ptStep with messages := [pointer] }) ∧
          pointer.message = (msgs ++ [msg]).map (fun m =>
            (getPeerSeed peers m.peerID, (m.data.getD 0 0, m.data.getD 1 0)))
    else ptStep.handleMessage peers msg = .ok (false, ptStep) := by
  obtain ⟨messages, resultKeys⟩ := ptStep
  obtain ⟨pointer, rfl, isPointer⟩ := List.map_eq_singleton_iff.mp isMessage
  have seeded := getPeerSeed_ne_zero listed nonzero
  have heard := lookup_seed seeds known listed (fun m => (m.data.getD 0 0, m.data.getD 1 0))
  rw [← isPointer] at heard
  match data : msg.data, long with
  | x :: y :: rest, _ =>
    unfold MpcPointStep.handleMessage
    simp only [data, Outcome.index, List.getElem?_cons_zero, List.getElem?_cons_succ,
      Outcome.ok_bind, if_neg seeded, MpcPointStep.signNum, List.length_cons, List.length_nil,
      offer]
    cases rest with
    | cons z rest => simp
    | nil =>
      by_cases member : msg.peerID ∈ msgs.map StepMessage.peerID
      · rw [if_neg (fun good => good.2 member)]
        simp only [heard.mpr member]
        rfl
      · rw [if_pos ⟨rfl, member⟩]
        simp only [heard.not.mpr member]
        refine ⟨_, rfl, ?_⟩
        have filed := assign_seed seeds known listed
          (fun m => (m.data.getD 0 0, m.data.getD 1 0)) member
        simp only [data, List.getD_cons_zero, List.getD_cons_succ] at filed
        rw [← filed, ← isPointer]

theorem handles_gpk {ptStep : MpcPointStep}
    (collected : (StepBody.gpk ptStep).Collected peers msgs) (long : 2 ≤ msg.data.length) :
    Handles peers msgs (.gpk ptStep) msg := by
  have handled := point_handled seeds known listed nonzero collected long
  split at handled
  next good =>
    obtain ⟨pointer, accepted, isMessage⟩ := handled
    refine handles_of_accepted good
      (by simp only [StepBody.handleMessage, accepted, Outcome.ok_bind]; rfl) ?_
    simp [StepBody.Collected, isMessage]
  next bad =>
    refine handles_of_refused collected bad ?_
    simp only [StepBody.handleMessage, handled, Outcome.ok_bind]
    rfl

theorem handles_r {ptStep : MpcPointStep}
    (collected : (StepBody.r ptStep).Collected peers msgs) (long : 2 ≤ msg.data.length) :
    Handles peers msgs (.r ptStep) msg := by
  have handled := point_handled seeds known listed nonzero collected long
  split at handled
  next good =>
    obtain ⟨pointer, accepted, isMessage⟩ := handled
    refine handles_of_accepted good
      (by simp only [StepBody.handleMessage, accepted, Outcome.ok_bind]; rfl) ?_
    simp [StepBody.Collected, isMessage]
  next bad =>
    refine handles_of_refused collected bad ?_
    simp only [StepBody.handleMessage, handled, Outcome.ok_bind]
    rfl

/-- With one generator the doubled index of the handler is still zero. -/
theorem handles_s {msStep : MpcSStep} (collected : (StepBody.s msStep).Collected peers msgs) :
    Handles peers msgs (.s msStep) msg := by
  obtain ⟨messages, resultKeys⟩ := msStep
  obtain ⟨pointer, rfl, isPointer⟩ := List.map_eq_singleton_iff.mp collected
  have seeded := getPeerSeed_ne_zero listed nonzero
  have heard := lookup_seed seeds known listed (fun m => m.data.getD 0 0)
  rw [← isPointer] at heard
  by_cases proper : msg.data.length = 1
  · obtain ⟨value, data⟩ := List.length_eq_one_iff.mp proper
    by_cases member : msg.peerID ∈ msgs.map StepMessage.peerID
    · refine handles_of_refused collected (fun good => good.2 member) ?_
      simp only [StepBody.handleMessage, MpcSStep.handleMessage, if_neg seeded, data,
        MpcSStep.signNum, offer, heard.mpr member]
      rfl
    · refine handles_of_accepted ⟨proper, member⟩ (by
        simp only [StepBody.handleMessage, MpcSStep.handleMessage, if_neg seeded, data,
          MpcSStep.signNum, offer, heard.not.mpr member]
        rfl) ?_
      have filed := assign_seed seeds known listed (fun m => m.data.getD 0 0) member
      simp only [data, List.getD_cons_zero] at filed
      simp only [StepBody.Collected, List.map_cons, List.map_nil]
      rw [← filed, ← isPointer]
  · refine handles_of_refused collected (fun good => proper good.1) ?_
    simp only [StepBody.handleMessage, MpcSStep.handleMessage, if_neg seeded, MpcSStep.signNum,
      List.length_cons, List.length_nil, Nat.zero_add, if_pos proper]
    rfl

theorem handles {body : StepBody} (collected : body.Collected peers msgs)
    (distinguishes : body.kind.Distinguishes) (long : body.kind.reads ≤ msg.data.length) :
    Handles peers msgs body msg := by
  cases body with
  | request req => exact handles_request collected
  | ackMpc | ready | getReady => exact distinguishes.elim
  | skShare poly => exact handles_skShare seeds known listed collected long
  | rskShare poly => exact handles_rskShare seeds known listed collected long
  | gpk ptStep => exact handles_gpk seeds known listed nonzero collected long
  | r ptStep => exact handles_r seeds known listed nonzero collected long
  | s msStep => exact handles_s seeds known listed nonzero collected
  | ackGPK ack => exact handles_ackGPK collected
  | ackRS mars => exact handles_ackRS collected

end

/-! ### Runs of the loop -/

/-- Initializing a step does not touch what it has collected. -/
theorem StepBody.Collected.initStep {env : Env} {body body' : StepBody}
    {peers peers' : List PeerInfo} {store : BaseMpcResult} {random : Randomness}
    {msgs : List StepMessage} (collected : body.Collected peers msgs)
    (inits : body.initStep env peers store random = some (.ok (body', peers'))) :
    body'.Collected peers msgs := by
  cases body with
  | request req =>
    obtain ⟨req', first, rfl⟩ := initStep_request inits
    simp only [StepBody.Collected, (RequestMpcStep.initStep_eq_ok first).2.1]
    exact collected
  | skShare poly | rskShare poly =>
    simp only [StepBody.initStep, Option.some.injEq, Outcome.bind_eq_ok_iff] at inits
    obtain ⟨poly', drawn, same⟩ := inits
    cases same
    simp only [StepBody.Collected, RandomPolynomialValue.initStep_message drawn]
    exact collected
  | gpk ptStep | r ptStep =>
    simp only [StepBody.initStep, MpcPointStep.initStep, Option.some.injEq,
      Outcome.bind_eq_ok_iff] at inits
    obtain ⟨_, ⟨messages, mapped, built⟩, same⟩ := inits
    cases built
    cases same
    -- InitStep reads the value of the node itself and files nothing
    have kept := map_of_mapM MpcPointGenerator.message (fun point result returned => by
      simp only [MpcPointGenerator.initializeFrom, Outcome.bind_eq_ok_iff] at returned
      obtain ⟨_, -, _, -, _, -, built⟩ := returned
      cases built
      rfl) mapped
    simp only [StepBody.Collected, kept]
    exact collected
  | s msStep =>
    simp only [StepBody.initStep, MpcSStep.initStep, Option.some.injEq,
      Outcome.bind_eq_ok_iff] at inits
    obtain ⟨_, ⟨messages, mapped, built⟩, same⟩ := inits
    cases built
    cases same
    have kept := map_of_mapM MpcSGenerator.message (fun msg result returned => by
      simp only [MpcSGenerator.initializeFrom, Outcome.bind_eq_ok_iff] at returned
      obtain ⟨_, -, _, -, _, -, _, -, _, -, _, -, _, -, _, -, _, -, built⟩ := returned
      cases built
      rfl) mapped
    simp only [StepBody.Collected, kept]
    exact collected
  | ackGPK ack =>
    obtain ⟨_, -, rfl⟩ := StepBody.initStep_ackGPK inits
    exact collected
  | ackRS mars =>
    simp only [StepBody.initStep, MpcAckRSStep.initStep, Option.some.injEq,
      Outcome.bind_eq_ok_iff] at inits
    obtain ⟨_, ⟨_, -, _, -, _, -, _, -, _, -, built⟩, same⟩ := inits
    cases built
    cases same
    exact collected
  | ackMpc | ready | getReady =>
    cases inits
    trivial

/-- A step that has collected nothing, with empty channels. -/
def Step.Fresh (peers : List PeerInfo) (step : Step) : Prop :=
  step.body.Collected peers [] ∧ step.finish = [] ∧ step.msgChan = []

theorem fresh_of_createContext {cfg : Config} {ctxType : CtxType} {mpcID : Nat}
    {ctxPeers : List PeerInfo} {preSetValue : List MpcValue} {ctx : MpcContext}
    (created : createContext cfg ctxType mpcID ctxPeers preSetValue = .ok ctx)
    (peers : List PeerInfo) : ∀ step ∈ ctx.mpcSteps, step.Fresh peers := by
  obtain ⟨leader, poly, steps, drawn, isSteps, rfl⟩ := createContext_steps created
  obtain ⟨-, rfl⟩ := createSkPolyValue_eq_ok drawn
  rcases isSteps with rfl | rfl
  · cases leader <;> simp [gpkSteps, gpkStep, Step.create, Step.Fresh, StepBody.Collected,
      RequestMpcStep.create, MpcPointStep.create, createPointGenerator, AckMpcGPKStep.create]
  · cases leader <;> simp [signSteps, signStep, Step.create, Step.Fresh, StepBody.Collected,
      RequestMpcStep.create, MpcPointStep.create, createPointGenerator, MpcSStep.create,
      createSGenerator, MpcAckRSStep.create]

/-- Messages of listed peers that have the integers which the handler reads at once. -/
def Step.Reads (peers : List PeerInfo) (step : Step) (msg : StepMessage) : Prop :=
  msg.peerID ∈ peers.map PeerInfo.peerID ∧
    (msg.stepId = step.stepId → step.body.kind.reads ≤ msg.data.length)

section

variable {peers : List PeerInfo} {W : Nat} {msgs : List StepMessage} {msg : StepMessage}
  {step : Step}

theorem handles_step (seeds : (peers.map PeerInfo.seed).Nodup)
    (nonzero : ∀ peer ∈ peers, peer.seed ≠ 0)
    (handshake : step.body.kind.Distinguishes ∨ W = 1) (exact : ExactCount peers W msgs step)
    (known : ∀ m ∈ msgs, m.peerID ∈ peers.map PeerInfo.peerID) (reads : Step.Reads peers step msg)
    (same : msg.stepId = step.stepId) (waits : 0 < step.waiting) :
    Handles peers msgs step.body msg := by
  by_cases distinguishes : step.body.kind.Distinguishes
  · exact handles seeds known reads.1 nonzero exact.collected distinguishes (reads.2 same)
  · -- the first message of a step that waits for one is new whoever sends it
    have one : W = 1 := handshake.resolve_left distinguishes
    have none : msgs = [] := by
      have bound := exact.waiting
      exact List.eq_nil_of_length_eq_zero (by omega)
    subst none
    cases body : step.body with
    | ackMpc | ready | getReady => exact handles_of_accepted ⟨trivial, by simp⟩ rfl trivial
    | _ =>
      rw [body] at distinguishes
      exact absurd trivial distinguishes

theorem ExactCount.distinct_append (exact : ExactCount peers W msgs step)
    (fresh : msg.peerID ∉ msgs.map StepMessage.peerID) :
    ((msgs ++ [msg]).map StepMessage.peerID).Nodup := by
  rw [List.map_append]
  exact exact.distinct.append (List.nodup_singleton _) (by simpa using fresh)

/-- One round keeps the count exact. -/
theorem ExactCount.round {kind : StepKind} {stepId : Nat} {next : Step}
    {rest : List (Option StepMessage)} (exact : ExactCount peers W msgs step)
    (isKind : step.body.kind = kind) (isId : step.stepId = stepId)
    (handled : msg.stepId = step.stepId → 0 < step.waiting → Handles peers msgs step.body msg)
    (round : Step.Round peers step msg rest next) :
    ExactCount peers W (countRound kind stepId W msgs msg) next := by
  subst isKind isId
  have waiting := exact.waiting
  have finish := exact.finish
  cases round with
  | ignored idle =>
    -- nothing is counted once all have come
    have out : ¬Counts step.body.kind step.stepId W msgs msg := by
      rintro ⟨same, short, -⟩
      omega
    rw [countRound, if_neg out]
    exact ⟨exact.distinct, exact.enough, waiting, finish, exact.collected⟩
  | refused same waits taken =>
    obtain ⟨body, decided, collected⟩ := handled same waits
    rw [taken, Outcome.ok.injEq, Prod.mk.injEq] at decided
    obtain ⟨verdict, rfl⟩ := decided
    have bad := of_decide_eq_false verdict.symm
    rw [if_neg bad] at collected
    rw [countRound, if_neg fun good => bad good.2.2]
    exact ⟨exact.distinct, exact.enough, waiting, finish, collected⟩
  | accepted same waits taken =>
    obtain ⟨body, decided, collected⟩ := handled same (by omega)
    rw [taken, Outcome.ok.injEq, Prod.mk.injEq] at decided
    obtain ⟨verdict, rfl⟩ := decided
    have good := of_decide_eq_true verdict.symm
    rw [if_pos good] at collected
    -- not the last one, so no result yet
    have short : msgs.length + 1 < W := by omega
    rw [countRound, if_pos ⟨same, by omega, good⟩]
    refine ⟨exact.distinct_append good.2, by simp; omega, by simp [waiting]; omega, ?_, collected⟩
    · simp only [List.length_append, List.length_singleton]
      rw [finish, if_neg (by omega), if_neg (by omega)]
  | last same waits room taken =>
    obtain ⟨body, decided, collected⟩ := handled same (by omega)
    rw [taken, Outcome.ok.injEq, Prod.mk.injEq] at decided
    obtain ⟨verdict, rfl⟩ := decided
    have good := of_decide_eq_true verdict.symm
    rw [if_pos good] at collected
    -- the last one puts nil on the channel
    have full : msgs.length + 1 = W := by omega
    rw [countRound, if_pos ⟨same, by omega, good⟩]
    refine ⟨exact.distinct_append good.2, by simp; omega, by simp; omega, ?_, collected⟩
    · simp only [List.length_append, List.length_singleton]
      rw [finish, if_neg (by omega), if_pos full]
      rfl

end

/-- What holds in every state of a run: the step is still the one it started as, and its count
is exact for the messages it has handled. -/
structure CountsAt (peers : List PeerInfo) (base : Step) (W : Nat) (msgs : List StepMessage)
    (step : Step) : Prop where
  kind : step.body.kind = base.body.kind
  stepId : step.stepId = base.stepId
  known : ∀ m ∈ msgs, m.peerID ∈ peers.map PeerInfo.peerID
  exact : ExactCount peers W (counted base.body.kind base.stepId W msgs) step

theorem CountsAt.counted_known {peers : List PeerInfo} {base step : Step} {W : Nat}
    {msgs : List StepMessage} (counts : CountsAt peers base W msgs step) :
    ∀ m ∈ counted base.body.kind base.stepId W msgs, m.peerID ∈ peers.map PeerInfo.peerID :=
  fun m member => counts.known m ((counted_sublist _ _ _ msgs).subset member)

theorem CountsAt.of_loops {peers : List PeerInfo} (seeds : (peers.map PeerInfo.seed).Nodup)
    (nonzero : ∀ peer ∈ peers, peer.seed ≠ 0) {base : Step} (fresh : base.Fresh peers) {W : Nat}
    (positive : 1 ≤ W) (handshake : base.body.kind.Distinguishes ∨ W = 1)
    {msgs : List StepMessage} {step : Step}
    (run : Step.Loops peers (Step.Reads peers) { base with waiting := W, looping := true } msgs
      step) : CountsAt peers base W msgs step := by
  refine run.invariant ?_ ?_ ?_ ?_
  · obtain ⟨collected, finish, -⟩ := fresh
    have notYet : ([] : List StepMessage).length ≠ W := by simp; omega
    refine ⟨rfl, rfl, by simp, List.nodup_nil, Nat.zero_le W, by simp [counted], ?_, collected⟩
    rw [counted, List.foldl_nil, if_neg notYet]
    exact finish
  · rintro msgs step msgChan ⟨isKind, isId, known, exact⟩
    exact ⟨isKind, isId, known, exact.distinct, exact.enough, exact.waiting, exact.finish,
      exact.collected⟩
  · rintro msgs step env store random body ⟨isKind, isId, known, exact⟩ inits
    exact ⟨(StepBody.initStep_kind inits).trans isKind, isId, known, exact.distinct,
      exact.enough, exact.waiting, exact.finish, exact.collected.initStep inits⟩
  · intro msgs step msg rest next counts reads round
    have handled := handles_step seeds nonzero (counts.kind.symm ▸ handshake) counts.exact
      counts.counted_known reads
    refine ⟨round.kind_stepId.1.trans counts.kind, round.kind_stepId.2.trans counts.stepId, ?_, ?_⟩
    · intro m member
      rcases List.mem_append.mp member with old | new
      · exact counts.known m old
      · rw [List.mem_singleton.mp new]
        exact reads.1
    · rw [counted_append]
      exact counts.exact.round counts.kind counts.stepId handled round

/-- The loop of such a step handles every message that it can read. -/
theorem ExactCount.handles_next {peers : List PeerInfo}
    (seeds : (peers.map PeerInfo.seed).Nodup) (nonzero : ∀ peer ∈ peers, peer.seed ≠ 0) {W : Nat}
    {msgs : List StepMessage} {msg : StepMessage} {step : Step}
    {rest : List (Option StepMessage)} (exact : ExactCount peers W msgs step)
    (handshake : step.body.kind.Distinguishes ∨ W = 1)
    (known : ∀ m ∈ msgs, m.peerID ∈ peers.map PeerInfo.peerID) (loops : step.looping = true)
    (head : step.msgChan = some msg :: rest) (reads : Step.Reads peers step msg) :
    ∃ next, step.handleMessage peers = some (.ok next) := by
  by_cases idle : msg.stepId ≠ step.stepId ∨ step.waiting ≤ 0
  · exact ⟨_, (Step.handleMessage_eq_ok_iff loops head).mpr (.ignored idle)⟩
  · have same : msg.stepId = step.stepId := by omega
    have waits : 0 < step.waiting := by omega
    obtain ⟨body, handled, -⟩ :=
      handles_step seeds nonzero handshake exact known reads same waits
    cases verdict : decide (step.body.kind.Proper msg ∧ msg.peerID ∉ msgs.map StepMessage.peerID)
    · rw [verdict] at handled
      exact ⟨_, (Step.handleMessage_eq_ok_iff loops head).mpr (.refused same waits handled)⟩
    · rw [verdict] at handled
      by_cases last : step.waiting = 1
      · have room : step.finish.length < 3 := by
          rw [exact.finish]
          split <;> simp
        exact ⟨_, (Step.handleMessage_eq_ok_iff loops head).mpr (.last same last room handled)⟩
      · exact ⟨_, (Step.handleMessage_eq_ok_iff loops head).mpr
          (.accepted same (by omega) handled)⟩

namespace CountingSample

def peers : List PeerInfo := [⟨1, 5⟩, ⟨2, 6⟩]

def followerContext : Go MpcContext := createContext ⟨2, 2⟩ .mpcGPKPeer 7 peers []

def shareStep : Step :=
  { Step.create (.skShare ⟨[0, 0], [], [0, 0], none⟩) peers (-1) with stepId := 2 }

def readyStep : Step := { Step.create .getReady peers 1 with stepId := 1 }

theorem followerContext_steps :
    ∃ ctx, followerContext = .ok ctx ∧ shareStep ∈ ctx.mpcSteps ∧ readyStep ∈ ctx.mpcSteps := by
  refine ⟨_, rfl, ?_, ?_⟩
  · exact List.mem_of_getElem? (i := 2) rfl
  · exact List.mem_of_getElem? (i := 1) rfl

def share (sender : NodeID) (value : Int) : StepMessage := ⟨sender, [value], [], 2⟩

def ready : StepMessage := ⟨1, [1], [], 1⟩

end CountingSample

/-- Every step of a context counts exactly, whatever it waits for, except that the steps of the
handshake are to wait for one message. -/
theorem steps_count_exactly {cfg : Config} {ctxType : CtxType} {mpcID : Nat}
    {ctxPeers : List PeerInfo} {preSetValue : List MpcValue} {ctx : MpcContext}
    (created : createContext cfg ctxType mpcID ctxPeers preSetValue = .ok ctx) {base : Step}
    (member : base ∈ ctx.mpcSteps) {peers : List PeerInfo}
    (seeds : (peers.map PeerInfo.seed).Nodup) (nonzero : ∀ peer ∈ peers, peer.seed ≠ 0) {W : Nat}
    (positive : 1 ≤ W) (handshake : base.body.kind.Distinguishes ∨ W = 1)
    {msgs : List StepMessage} {step : Step}
    (run : Step.Loops peers (Step.Reads peers) { base with waiting := W, looping := true } msgs
      step) :
    ExactCount peers W (counted base.body.kind base.stepId W msgs) step ∧
      (counted base.body.kind base.stepId W msgs).Sublist msgs ∧
      (∀ more, (counted base.body.kind base.stepId W msgs).length = W →
        counted base.body.kind base.stepId W (msgs ++ more) =
          counted base.body.kind base.stepId W msgs) ∧
      ∀ msg rest, step.looping = true → step.msgChan = some msg :: rest →
        Step.Reads peers step msg → ∃ next, step.handleMessage peers = some (.ok next) := by
  have fresh := fresh_of_createContext created peers base member
  have counts := CountsAt.of_loops seeds nonzero fresh positive handshake run
  refine ⟨counts.exact, counted_sublist _ _ _ msgs, fun more full => counted_of_full full more, ?_⟩
  intro msg rest loops head reads
  exact counts.exact.handles_next seeds nonzero (counts.kind.symm ▸ handshake)
    counts.counted_known loops head reads

open CountingSample in
/-- The first peer sends another share before the second sends one. -/
theorem steps_count_exactly_shares :
    ∃ step, Step.Loops peers (Step.Reads peers) { shareStep with waiting := 2, looping := true }
        [share 1 8, share 1 9, share 2 4] step ∧
      ExactCount peers 2 [share 1 8, share 2 4] step := by
  obtain ⟨ctx, created, member, -⟩ := followerContext_steps
  obtain ⟨step, delivered⟩ : ∃ step, [share 1 8, share 1 9, share 2 4].foldlM (Step.deliver peers)
      { shareStep with waiting := 2, looping := true } = some step :=
    Option.isSome_iff_exists.mp (by decide +kernel)
  have run : Step.Loops peers (Step.Reads peers) { shareStep with waiting := 2, looping := true }
      [share 1 8, share 1 9, share 2 4] step := by
    refine .deliverAll rfl rfl (fun msg sent state isKind isId => ?_) delivered
    have listed : ∀ msg ∈ [share 1 8, share 1 9, share 2 4],
        msg.peerID ∈ peers.map PeerInfo.peerID ∧ 1 ≤ msg.data.length := by decide +kernel
    refine ⟨(listed msg sent).1, fun _ => ?_⟩
    rw [isKind]
    exact (listed msg sent).2
  have counts := steps_count_exactly created member (by decide) (by decide) (by decide)
    (.inl trivial) run
  have isCounted : counted shareStep.body.kind shareStep.stepId 2
      [share 1 8, share 1 9, share 2 4] = [share 1 8, share 2 4] := by decide +kernel
  rw [isCounted] at counts
  exact ⟨step, run, counts.1⟩

open CountingSample in
/-- Told to wait for two messages, the step that waits for the leader counts one peer twice. -/
theorem readyStep_counts_twice :
    ∃ ctx step, followerContext = .ok ctx ∧ readyStep ∈ ctx.mpcSteps ∧
      Step.Loops peers (Step.Reads peers) { readyStep with waiting := 2, looping := true }
        [ready, ready] step ∧
      step.waiting = 0 ∧ step.finish = [none] := by
  obtain ⟨ctx, created, -, member⟩ := followerContext_steps
  refine ⟨ctx, { readyStep with waiting := 0, looping := true, finish := [none] }, created, member,
    .deliverAll rfl rfl (fun msg sent state isKind isId => ?_) (by decide +kernel), rfl, rfl⟩
  have listed : ∀ msg ∈ [ready, ready], msg.peerID ∈ peers.map PeerInfo.peerID := by
    decide +kernel
  refine ⟨listed msg sent, fun _ => ?_⟩
  rw [isKind]
  exact Nat.zero_le _

end SchnorrMpc
