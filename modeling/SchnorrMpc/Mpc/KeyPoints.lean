import SchnorrMpc.Mpc.Dealing
import SchnorrMpc.Mpc.KeyMessages

/-!
# Shares and points of a key generation

What a node shows the others in the step of the group key is the public share of
the private share it has stored. The points it interpolates from are those that
others have shown to it, filed under their seeds.
-/
namespace SchnorrMpc

open Lib S256

variable {peers table : List PeerInfo} {cfg : Config} {heard : NodeID → MpcMessage → Prop}
  {entries order : Assoc Nat (Int × Int)} {msg : MpcMessage} {body : StepBody} {i : Nat}
  {u v : ContextRun} {choice : Choice} {pointer : MpcPointGenerator} {gpk : Int × Int} {share : Int}
  {keyStore : KeyStore} {encoded : Bytes}

/-! ### Seeds -/

theorem getPeerSeed_of_zero (zero : ∀ peer ∈ peers, peer.seed = 0) (peerID : NodeID) :
    getPeerSeed peers peerID = 0 := by
  unfold getPeerSeed
  split
  next item found => exact zero item (List.mem_of_find?_eq_some found)
  next => rfl

theorem mem_of_getPeerSeed {peerID : NodeID}
    (listed : getPeerSeed peers peerID ≠ 0 ∨ peerID ∈ peers.map PeerInfo.peerID) :
    ⟨peerID, getPeerSeed peers peerID⟩ ∈ peers := by
  unfold getPeerSeed at listed ⊢
  split
  next item found =>
    obtain rfl : item.peerID = peerID := by simpa using List.find?_some found
    exact List.mem_of_find?_eq_some found
  next missing =>
    rw [missing] at listed
    rcases listed with seeded | member
    · exact absurd rfl seeded
    · obtain ⟨peer, inside, rfl⟩ := List.mem_map.mp member
      exact absurd (decide_eq_true rfl) (List.find?_eq_none.mp missing peer inside)

/-- Seeds that tell the peers apart, in the range that the nodes draw from and accept. -/
structure Seeded (peers : List PeerInfo) : Prop where
  distinct : (peers.map PeerInfo.seed).Nodup
  small : ∀ peer ∈ peers, peer.seed < 2 ^ 24

theorem Seeded.peerID_inj (seeded : Seeded peers) {p q : NodeID}
    (listedP : getPeerSeed peers p ≠ 0 ∨ p ∈ peers.map PeerInfo.peerID)
    (listedQ : getPeerSeed peers q ≠ 0 ∨ q ∈ peers.map PeerInfo.peerID)
    (same : getPeerSeed peers p = getPeerSeed peers q) : p = q := by
  have equal := List.inj_on_of_nodup_map seeded.distinct (mem_of_getPeerSeed listedP)
    (mem_of_getPeerSeed listedQ) same
  exact congrArg PeerInfo.peerID equal

theorem Seeded.of_drawn (drawn : SeedsDrawn peers) : Seeded peers := by
  refine ⟨drawn.distinct, fun peer member => ?_⟩
  have := (drawn.range peer member).2
  omega

theorem createContext_seeded {mpcID : Nat} {ctx : MpcContext}
    (created : createContext cfg .mpcGPKPeer mpcID peers [] = .ok ctx) : Seeded ctx.peers := by
  have accepted : ackGPKMpc cfg mpcID peers [] = .ok ctx := created
  simp only [ackGPKMpc, Outcome.bind_eq_ok_iff] at accepted
  obtain ⟨_, checked, -⟩ := accepted
  obtain ⟨small, distinct⟩ := (checkSeeds_ok_iff_table peers).mp checked
  rw [createContext_peers created]
  refine ⟨distinct, fun peer member => ?_⟩
  have := small peer member
  omega

/-! ### Points that a node has collected -/

/-- Points that others have shown, one each, under the seed that the table gives them. -/
structure Shown (heard : NodeID → MpcMessage → Prop) (table : List PeerInfo)
    (entries : Assoc Nat (Int × Int)) : Prop where
  distinct : (entries.map Prod.fst).Nodup
  origin : ∀ entry ∈ entries, ∃ sender msg, heard sender msg ∧ msg.stepID = 3 ∧
    getPeerSeed table sender = entry.1 ∧ entry.1 ≠ 0 ∧ msg.data = [entry.2.1, entry.2.2]

section

variable (shown : Shown heard table entries)

include shown

theorem Shown.mono {heard' : NodeID → MpcMessage → Prop}
    (more : ∀ sender msg, heard sender msg → heard' sender msg) : Shown heard' table entries := by
  refine ⟨shown.distinct, fun entry member => ?_⟩
  obtain ⟨sender, msg, was, content⟩ := shown.origin entry member
  exact ⟨sender, msg, more _ _ was, content⟩

theorem Shown.perm (perm : order.Perm entries) : Shown heard table order := by
  constructor
  · exact (perm.map Prod.fst).nodup_iff.mpr shown.distinct
  · intro entry member
    exact shown.origin entry (perm.mem_iff.mp member)

theorem Shown.assign {sender : NodeID} {x y : Int} (comes : heard sender msg)
    (isStep : msg.stepID = 3) (seeded : getPeerSeed table sender ≠ 0)
    (isPoint : msg.data = [x, y]) :
    Shown heard table (Assoc.assign entries (getPeerSeed table sender) (x, y)) := by
  refine ⟨Assoc.nodup_keys_assign shown.distinct _ _, fun entry member => ?_⟩
  rcases List.mem_append.mp member with kept | new
  · exact shown.origin entry (List.mem_filter.mp kept).1
  · obtain rfl := List.mem_singleton.mp new
    exact ⟨sender, msg, comes, isStep, rfl, seeded, isPoint⟩

end

namespace View

variable {kenv : KeyEnv} {cfg : Config} {arrives : NodeID → MpcMessage → Prop} {v v' : View}
  {leader : Bool} {table : List PeerInfo}

/-- The points that the step of the group key holds. -/
def Collects (arrives : NodeID → MpcMessage → Prop) (table : List PeerInfo) (v : View) : Prop :=
  ∀ pointer, v.bodies[3]? = some (.gpk ⟨[pointer], [.publicKeyResult]⟩) →
    Shown (v.Heard arrives) table pointer.message

theorem eq_gpk (kinds : v.bodies.map StepBody.kind = gpkKinds leader)
    (found : v.bodies[3]? = some body) :
    ∃ pointer, body = .gpk ⟨[pointer], [.publicKeyResult]⟩ ∧
      pointer.preValueKey = .mpcPublicShare := by
  apply StepBody.eq_gpk
  have fourth := congrArg (fun kinds => kinds[3]?) kinds
  cases leader <;> simpa [found, gpkKinds] using fourth

/-- As long as the seeds are not known, no point is taken. -/
theorem Moves.collects (moves : Moves kenv cfg arrives v v')
    (kinds : v.bodies.map StepBody.kind = gpkKinds leader)
    (known : (∀ peer ∈ v.peers, peer.seed = 0) ∨ v.peers = table)
    (collects : v.Collects arrives table) : v'.Collects arrives table := by
  intro pointer' found
  refine Shown.mono ?_ fun sender msg => moves.heard
  rcases moves.body_cases found with same | ⟨body, isBody, handled | inited | finished⟩
  · exact collects pointer' same
  · obtain ⟨sender, msg, accepted, heard, isStep, handled⟩ := handled
    obtain ⟨pointer, rfl, -⟩ := eq_gpk kinds isBody
    obtain ⟨message, same, cases⟩ := StepBody.handleMessage_gpk handled
    obtain rfl : pointer' = { pointer with message } := by simpa using same
    rcases cases with rfl | ⟨x, y, isPoint, seeded, rfl⟩
    · exact collects pointer isBody
    · rcases known with zero | rfl
      · exact absurd (getPeerSeed_of_zero zero sender) seeded
      · exact (collects pointer isBody).assign heard isStep seeded isPoint
  · obtain ⟨random, -, inits⟩ := inited
    obtain ⟨pointer, rfl, -⟩ := eq_gpk kinds isBody
    obtain ⟨value, x, y, -, -, -, same⟩ := StepBody.initStep_gpk inits
    obtain rfl : pointer' = { pointer with seed := (x, y) } := by simpa using same
    exact collects pointer isBody
  · obtain ⟨choice, -, iterates, finishes⟩ := finished
    obtain ⟨pointer, rfl, -⟩ := eq_gpk kinds isBody
    obtain ⟨_, finished, -⟩ := StepBody.finish_cases finishes
    obtain ⟨order, result, -, -, calculated, same, -⟩ := StepBody.finishStep_gpk iterates finished
    obtain rfl : pointer' = result := by simpa using same
    rw [(MpcPointGenerator.calculateResult_eq_ok calculated).2.2]
    exact collects pointer isBody

/-! ### The table of a run -/

private theorem kind_of_index (kinds : v.bodies.map StepBody.kind = gpkKinds leader)
    (found : v.bodies[i]? = some body) : (gpkKinds leader)[i]? = some body.kind := by
  rw [← kinds, List.getElem?_map, found]
  rfl

section

variable (moves : Moves kenv cfg arrives v v')
  (kinds : v.bodies.map StepBody.kind = gpkKinds leader)

include moves kinds

theorem Moves.peers_cases : v'.peers = v.peers ∨ v.stage = .before 0 ∧ Seeded v'.peers := by
  cases moves with
  | init i body body' random peers out isStage isBody admissible inits creates =>
    have changed := StepBody.initStep_peers inits
    split at changed
    next isRequest =>
      have found := kind_of_index kinds isBody
      rw [isRequest] at found
      obtain rfl := (gpkKinds_index found).2 _ rfl
      exact .inr ⟨isStage, .of_drawn changed.2⟩
    next => exact .inl changed
  | handle | mail | finish | fail | complete | crash => exact .inl rfl

/-- A follower is told the seeds with the request, and a leader draws them to begin with. -/
theorem Moves.seeded (isStart : v.stage = .before 0) (told : leader = false → Seeded v.peers) :
    (v'.stage = .before 0 ∧ v'.peers = v.peers) ∨ Seeded v'.peers ∨
      (∃ error, v'.stage = .failed error) ∨ v'.stage = .panicked := by
  cases moves with
  | handle => exact .inl ⟨isStart, rfl⟩
  | init i body body' random peers out isStage isBody admissible inits creates =>
    obtain rfl : i = 0 := by simpa [isStart] using isStage.symm
    have found := kind_of_index kinds isBody
    have changed := StepBody.initStep_peers inits
    refine .inr (.inl ?_)
    cases leader with
    | true =>
      rw [if_pos (Option.some.inj found.symm)] at changed
      exact .of_drawn changed.2
    | false =>
      have isAck : body.kind = .ackMpc .mpcGPKPeer := Option.some.inj found.symm
      rw [if_neg (by simp [isAck])] at changed
      rw [changed]
      exact told rfl
  | mail i item rest isStage => simp [isStart] at isStage
  | finish i body body' choice store srv isStage => simp [isStart] at isStage
  | fail error => exact .inr (.inr (.inl ⟨error, rfl⟩))
  | complete i isStage isEnd =>
    obtain rfl : i = 0 := by simpa [isStart] using isStage.symm
    have length := congrArg List.length kinds
    simp only [List.length_map, length_gpkKinds, List.eq_nil_of_length_eq_zero
      (Nat.le_zero.mp (List.getElem?_eq_none_iff.mp isEnd)), List.length_nil] at length
    cases length
  | crash => exact .inr (.inr (.inr rfl))

end

theorem Reaches.peers_of_reached (reaches : Reaches kenv cfg arrives v v')
    (kinds : v.bodies.map StepBody.kind = gpkKinds leader) (reached : v.stage.Reached 0) :
    v'.stage.Reached 0 ∧ v'.peers = v.peers := by
  induction reaches with
  | refl => exact ⟨reached, rfl⟩
  | tail path last ih =>
    obtain ⟨still, same⟩ := ih
    refine ⟨last.reached still, ?_⟩
    rcases last.peers_cases ((Reaches.kinds path).trans kinds) with unchanged | ⟨isStage, -⟩
    · exact unchanged.trans same
    · rw [isStage] at still
      exact absurd still (Nat.lt_irrefl 0)

theorem Reaches.peers_between {u : View} (before : Reaches kenv cfg arrives v u)
    (after : Reaches kenv cfg arrives u v')
    (kinds : v.bodies.map StepBody.kind = gpkKinds leader) (isStart : v.stage = .before 0) :
    u.peers = v.peers ∨ u.peers = v'.peers := by
  have early : u.stage.Reached 0 ∨ u.stage = .before 0 ∧ u.peers = v.peers := by
    clear after
    induction before with
    | refl => exact .inr ⟨isStart, rfl⟩
    | @tail s t path last ih =>
      rcases ih with reached | ⟨isStage, same⟩
      · exact .inl (last.reached reached)
      · cases last with
        | handle => exact .inr ⟨isStage, same⟩
        | init i _ _ _ _ _ atInit => exact .inl (by simp_all [Stage.Reached])
        | mail i _ _ atMail => simp_all
        | finish i _ _ _ _ _ atFinish => simp_all
        | fail | complete | crash => exact .inl trivial
  rcases early with reached | ⟨-, same⟩
  · exact .inr (after.peers_of_reached ((Reaches.kinds before).trans kinds) reached).2.symm
  · exact .inl same

/-- A run that gets past its first step has a table to work with. -/
theorem Reaches.seeded (reaches : Reaches kenv cfg arrives v v')
    (kinds : v.bodies.map StepBody.kind = gpkKinds leader) (isStart : v.stage = .before 0)
    (told : leader = false → Seeded v.peers) (past : v'.stage.Past 0) : Seeded v'.peers := by
  suffices cases : (v'.stage = .before 0 ∧ v'.peers = v.peers) ∨ Seeded v'.peers ∨
      (∃ error, v'.stage = .failed error) ∨ v'.stage = .panicked by
    rcases cases with ⟨isStage, -⟩ | seeded | ⟨error, isStage⟩ | isStage
    · rw [isStage] at past
      exact absurd past (Nat.lt_irrefl 0)
    · exact seeded
    all_goals
      rw [isStage] at past
      exact past.elim
  clear past
  induction reaches with
  | refl => exact .inl ⟨isStart, rfl⟩
  | @tail s t path last ih =>
    have sameKinds := (Reaches.kinds path).trans kinds
    rcases ih with ⟨isStage, same⟩ | seeded | ended
    · rw [← same] at told ⊢
      exact last.seeded sameKinds isStage told
    · rcases last.peers_cases sameKinds with unchanged | ⟨-, drawn⟩
      · exact .inr (.inl (unchanged ▸ seeded))
      · exact .inr (.inl drawn)
    · refine .inr (.inr ?_)
      cases last with
      | handle => exact ended
      | fail error => exact .inl ⟨error, rfl⟩
      | crash => exact .inr rfl
      | init i _ _ _ _ _ isStage | mail i _ _ isStage | finish i _ _ _ _ _ isStage
      | complete i isStage => simp [isStage] at ended

theorem Reaches.collects {u : View} (before : Reaches kenv cfg arrives v u)
    (after : Reaches kenv cfg arrives u v')
    (kinds : v.bodies.map StepBody.kind = gpkKinds leader) (isStart : v.stage = .before 0)
    (fresh : (∀ peer ∈ v.peers, peer.seed = 0) ∨ v.peers = table) (isTable : v'.peers = table)
    (collects : v.Collects arrives table) : u.Collects arrives table := by
  induction before with
  | refl => exact collects
  | @tail s t path last ih =>
    have rest := after.head last
    refine last.collects ((Reaches.kinds path).trans kinds) ?_ (ih rest)
    rcases Reaches.peers_between path rest kinds isStart with first | final
    · rw [first]
      exact fresh
    · exact .inr (final.trans isTable)

/-! ### What a node shows -/

theorem Reaches.shows (reaches : Reaches kenv cfg arrives v v') (nothing : v.posted = [])
    (kinds : v.bodies.map StepBody.kind = gpkKinds leader) :
    ∀ mail ∈ v'.posted, mail.2.stepID = 3 → ∃ value x y,
      v'.store.result .mpcPublicShare = some value ∧ value[0]? = some x ∧ value[1]? = some y ∧
        mail.2.data = [x, y] := by
  refine Reaches.mail_content (fun store msg => ∃ value x y,
    store.result .mpcPublicShare = some value ∧ value[0]? = some x ∧ value[1]? = some y ∧
      msg.data = [x, y]) reaches nothing ?_ ?_
  · rintro u msg path ⟨body, body', random, peers, out, item, -, isBody, inits, creates, inOut,
      content, -⟩ isStep
    rw [isStep] at isBody
    obtain ⟨pointer, rfl, isKey⟩ := eq_gpk ((Reaches.kinds path).trans kinds) isBody
    obtain ⟨value, x, y, isValue, isX, isY, rfl⟩ := StepBody.initStep_gpk inits
    cases creates
    obtain rfl := List.mem_singleton.mp inOut
    rw [isKey] at isValue
    exact ⟨value, x, y, isValue, isX, isY, content⟩
  · rintro u u' msg path move later ⟨value, x, y, isValue, content⟩
    have unwritten : ∀ kind ∈ (u.bodies.map StepBody.kind).drop 3,
        ResultKey.mpcPublicShare ∉ kind.writes := by
      rw [Reaches.kinds path, kinds]
      cases leader <;> decide
    exact ⟨value, x, y, by rw [move.result_frame later unwritten, isValue], content⟩

end View

/-! ### Whole runs -/

theorem StepBody.finishStep_skShare {env : Env} {poly : RandomPolynomialValue} {body' : StepBody}
    {store store' : BaseMpcResult} {orders : Orders}
    (finishes : (StepBody.skShare poly).finishStep env cfg peers store orders =
      .ok (body', store')) :
    ∃ share x y : Int, 0 ≤ share ∧ share < N ∧
      env.curve.scalarBaseMult (intBytes share) = .ok (some (x, y)) ∧
      store' = (store.setValue .mpcPrivateShare [share]).setValue .mpcPublicShare [x, y] := by
  simp only [finishStep, Outcome.bind_eq_ok_iff] at finishes
  obtain ⟨⟨poly', after⟩, finished, same⟩ := finishes
  cases same
  exact RandomPolynomialValue.finish_paired finished

section Runs

variable {kenv : KeyEnv} {cfg : Config} {arrives : NodeID → MpcMessage → Prop}
  {srv : MpcDistributor} {leader : Bool} {ctx : MpcContext} (start : GpkStart leader ctx)
  {run : ContextRun}

include start

theorem GpkStart.kept (key : ResultKey)
    (before : ContextRun.Reaches kenv cfg arrives (.start srv ctx) u)
    (after : ContextRun.Reaches kenv cfg arrives u run) (later : u.pc.stage.AtLeast i)
    (unwritten : ∀ kind ∈ (gpkKinds leader).drop i, key ∉ kind.writes) :
    run.ctx.mpcResult.result key = u.ctx.mpcResult.result key := by
  obtain ⟨inbox, -⟩ := ContextRun.Reaches.refines before start.initially
  obtain ⟨-, path⟩ := ContextRun.Reaches.refines after inbox
  obtain ⟨-, kinds⟩ := start.path before
  rw [← kinds] at unwritten
  exact (View.Reaches.result_frame path later unwritten).2

theorem GpkStart.shows (reaches : ContextRun.Reaches kenv cfg arrives (.start srv ctx) run)
    {receiver : NodeID} (sent : (receiver, msg) ∈ mails run.sent) (isStep : msg.stepID = 3) :
    ∃ value x y, run.ctx.mpcResult.result .mpcPublicShare = some value ∧ value[0]? = some x ∧
      value[1]? = some y ∧ msg.data = [x, y] :=
  View.Reaches.shows (start.path reaches).1 rfl start.kinds (receiver, msg)
    (List.mem_append_left _ sent) isStep

/-- The shares that a run past the sharing has stored. -/
theorem GpkStart.shared (reaches : ContextRun.Reaches kenv cfg arrives (.start srv ctx) run)
    (past : run.pc.stage.Past 2) :
    ∃ share x y : Int, 0 ≤ share ∧ share < N ∧
      kenv.curve.scalarBaseMult (intBytes share) = .ok (some (x, y)) ∧
      run.ctx.mpcResult.result .mpcPrivateShare = some [share] ∧
      run.ctx.mpcResult.result .mpcPublicShare = some [x, y] := by
  obtain ⟨choice, u, v, finishes⟩ := start.finished reaches (by decide) past
  obtain ⟨step, body, store, srv', found, iterates, finished, isNext⟩ := finishes.body
  obtain ⟨poly, isBody⟩ : ∃ poly, step.body = .skShare poly := by
    apply StepBody.eq_skShare
    obtain ⟨-, kinds⟩ := start.path finishes.before
    have third := congrArg (fun kinds => kinds[2]?) kinds
    cases leader <;> simpa [ContextRun.view, found, gpkKinds] using third
  rw [isBody] at finished
  obtain ⟨between, computed, stored⟩ := StepBody.finish_cases finished
  obtain ⟨share, x, y, nonneg, small, isPoint, isStore⟩ := StepBody.finishStep_skShare computed
  have sameStore : store = between := by
    rcases stored with ⟨⟨ptStep, isGpk⟩, -⟩ | ⟨-, same, -⟩
    · have kind := StepBody.finishStep_kind computed
      rw [isGpk] at kind
      cases kind
    · exact same
  have later : v.pc.stage.AtLeast 3 := by simp [finishes.isNext, Pc.stage, Stage.AtLeast]
  have result : v.ctx.mpcResult = store := by rw [isNext]
  have privateShare := start.kept .mpcPrivateShare finishes.toNext finishes.after later
    (by cases leader <;> decide)
  have publicShare := start.kept .mpcPublicShare finishes.toNext finishes.after later
    (by cases leader <;> decide)
  rw [result, sameStore, isStore] at privateShare publicShare
  exact ⟨share, x, y, nonneg, small, isPoint, by simp [privateShare], by simp [publicShare]⟩

section

variable (finishes : ContextRun.Finishes kenv cfg arrives (.start srv ctx) run 3 choice u v)
  (key : KeyFinished kenv cfg u v choice pointer order gpk share keyStore encoded)

include finishes key

theorem GpkStart.stored_share :
    ∃ rest, run.ctx.mpcResult.result .mpcPrivateShare = some (share :: rest) := by
  obtain ⟨rest, isShare⟩ := key.privateShare
  have later : u.pc.stage.AtLeast 3 := by simp [finishes.isPc, Pc.stage, Stage.AtLeast]
  have kept := start.kept .mpcPrivateShare finishes.before (finishes.after.head finishes.move) later
    (by cases leader <;> decide)
  exact ⟨rest, kept.trans isShare⟩

/-- The points that a run has interpolated from, in a run whose table is `table` from the moment
on when it has one. -/
theorem GpkStart.shown (fresh : (∀ peer ∈ ctx.peers, peer.seed = 0) ∨ ctx.peers = table)
    (isTable : run.ctx.peers = table) : Shown (run.view.Heard arrives) table order := by
  obtain ⟨inbox, before⟩ := ContextRun.Reaches.refines finishes.before start.initially
  obtain ⟨-, after⟩ := ContextRun.Reaches.refines (finishes.after.head finishes.move) inbox
  have empty : (ContextRun.start srv ctx).view.Collects arrives table := by
    intro pointer found
    have first := start.freshKey _ (List.mem_of_getElem? found)
    simp only [MpcPointStep.create, MpcPointStep.mk.injEq, List.map_cons, List.map_nil,
      List.cons.injEq, and_true] at first
    rw [first]
    exact ⟨List.nodup_nil, fun entry member => absurd member List.not_mem_nil⟩
  have collects := View.Reaches.collects before after start.kinds rfl fresh isTable empty
  refine ((collects pointer key.body).mono fun _ _ => View.Reaches.heard after).perm key.perm

end

end Runs
end SchnorrMpc
