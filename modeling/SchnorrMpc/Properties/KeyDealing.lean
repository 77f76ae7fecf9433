import SchnorrMpc.Crypto.Reference
import SchnorrMpc.Mpc.Dealing
import SchnorrMpc.Properties.KeySharing
import SchnorrMpc.Properties.Quiescence

/-!
# The key that a group of honest nodes generates

Every node deals the values of a polynomial of its own, and has in the end the
sum of what it was dealt. So the shares of the group are values of one
polynomial, and the group key is the multiple of the base point by its value at
zero.

## Main results

* `ContextRun.Runs.dealt`: the private shares that a run has sent are values of its polynomial.
* `ContextRun.Runs.summed`: the stored share is the sum of the shares that have been counted.
* `Deployment.Ends.share_eq`: the share of a node is a value of the sum of all polynomials.
-/
namespace SchnorrMpc

open Lib S256 Polynomial

variable {poly : RandomPolynomialValue} {i mpcID k : Nat} {peers : List PeerInfo} {ctx : MpcContext}
  {srv : MpcDistributor} {heard : List (NodeID × MpcMessage)} {sender : NodeID} {msg : MpcMessage}

/-! ### Dealing -/

noncomputable def StepBody.dealt : StepBody → (ZMod N)[X]
  | .skShare poly => poly.dealt
  | _ => 0

/-- Seeds are drawn before any share is made. -/
theorem View.Moves.peers_early {kenv : KeyEnv} {cfg : Config}
    {arrives : NodeID → MpcMessage → Prop} {v v' : View} {leader : Bool}
    (moves : Moves kenv cfg arrives v v') (kinds : v.bodies.map StepBody.kind = gpkKinds leader) :
    v'.peers = v.peers ∨ ¬v.stage.Reached 2 := by
  refine (moves.peers_cases kinds).imp_right fun early => ?_
  rw [early.1]
  exact Nat.not_lt_zero 2

/-- A new context has a polynomial of the degree of the configuration, and no shares. -/
theorem createContext_skShare {cfg : Config} {leader : Bool}
    (created : createContext cfg (if leader then .mpcGPKLeader else .mpcGPKPeer) mpcID peers [] =
      .ok ctx) :
    ∃ poly, (ctx.mpcSteps.map Step.body)[2]? = some (.skShare poly) ∧
      poly.randCoefficient.length = (cfg.mpcDegree + 1).toNat := by
  obtain ⟨poly, drawn, rfl⟩ := createContext_gpkSteps leader created
  obtain ⟨-, rfl⟩ := createSkPolyValue_eq_ok drawn
  exact ⟨_, by cases leader <;> rfl, List.length_replicate⟩

/-! ### Adding up -/

namespace ContextRun

variable {kenv : KeyEnv} {cfg : Config} {leader : Bool} {run next : ContextRun} {action : Action}

/-- The private share that is stored is the sum of what has been counted. -/
def Summed (run : ContextRun) : Prop :=
  run.pc.stage.Past 2 → ∃ step poly, ∃ share : Int, run.ctx.mpcSteps[2]? = some step ∧
    step.body = .skShare poly ∧ run.ctx.mpcResult.result .mpcPrivateShare = some [share] ∧
    (share : ZMod N) = (poly.message.map fun entry => (entry.2 : ZMod N)).sum

theorem passed_of_past {pc : Pc} (past : pc.stage.Past k) : pc.Passed k ∨ pc.Complete := by
  cases pc with
  | initMessageLoop => exact absurd past (Nat.not_lt_zero k)
  | initStep | sending | waiting => exact .inl past
  | stopping => exact .inl (.inl past)
  | finishStep => exact .inl (Nat.le_of_lt past)
  | failing | panicked => exact past.elim
  | quit result | quitting result | returned result =>
    cases result with
    | none => exact .inr rfl
    | some error => exact past.elim

theorem Becomes.body_of_down {step step' : Step} (becomes : run.Becomes kenv cfg i step step')
    (down : step.waiting ≤ 0) (past : run.pc.stage.Past i) : step'.body = step.body := by
  cases becomes with
  | quiet => rfl
  | inits isPc | finishes isPc =>
    rw [isPc] at past
    exact absurd past (Nat.lt_irrefl i)
  | rounds loops head round =>
    cases round with
    | ignored => rfl
    | refused _ waits | accepted _ waits => omega
    | last _ waits => omega

/-- Finishing the step stores the sum, and later steps store other things. -/
theorem Finishes.summed {choice : Choice} {j : Nat}
    (finishing : Finishes kenv cfg (fun _ _ => True) run next j choice run next)
    (kinds : (run.ctx.mpcSteps.map Step.body).map StepBody.kind = gpkKinds leader)
    (summed : run.Summed) : next.Summed := by
  intro past
  obtain ⟨step, body, store, srv, found, iterates, finished, rfl⟩ := finishing.body
  have isKind : (gpkKinds leader)[j]? = some step.body.kind := by
    rw [← kinds, List.getElem?_map, List.getElem?_map, found]
    rfl
  have later : 2 ≤ j := Nat.le_of_lt_succ past
  obtain ⟨between, computed, stored⟩ := StepBody.finish_cases finished
  -- the step of the shares itself, or a later one
  by_cases here : j = 2
  · subst here
    obtain ⟨poly, isBody⟩ : ∃ poly, step.body = .skShare poly := by
      apply StepBody.eq_skShare
      cases leader <;> exact (Option.some.inj isKind).symm
    rw [isBody] at computed iterates
    obtain ⟨order, isOrder, perm⟩ := iterates
    simp only [StepBody.finishStep, Outcome.bind_eq_ok_iff] at computed
    obtain ⟨⟨poly', after⟩, adds, same⟩ := computed
    cases same
    obtain ⟨share, isShare, sum⟩ :=
      RandomPolynomialValue.finish_sum isOrder perm (by decide) adds
    have sameStore : store = after := by
      rcases stored with ⟨⟨ptStep, isGpk⟩, -⟩ | ⟨-, same, -⟩
      · cases isGpk
      · exact same
    refine ⟨{ step with body := .skShare poly' }, poly', share,
      List.getElem?_set_self (List.getElem?_eq_some_iff.mp found).1, rfl, ?_, ?_⟩
    · rw [sameStore]
      exact isShare
    · rw [(RandomPolynomialValue.finish_kept adds).2]
      exact sum
  · have was : run.pc.stage.Past 2 := by
      rw [finishing.isPc]
      exact Nat.lt_of_le_of_ne later (Ne.symm here)
    obtain ⟨step₂, poly, share, found₂, isBody, isShare, sum⟩ := summed was
    refine ⟨step₂, poly, share, (List.getElem?_set_ne here).trans found₂, isBody, ?_, sum⟩
    -- the later steps write other keys
    have unwritten : .mpcPrivateShare ∉ step.body.kind.writes := by
      have inside : j < 5 := by simpa using (List.getElem?_eq_some_iff.mp isKind).1
      rcases (by omega : j = 3 ∨ j = 4) with rfl | rfl
      all_goals
        obtain ⟨kind, isKind'⟩ : ∃ kind, step.body.kind = kind := ⟨_, rfl⟩
        rw [isKind'] at isKind ⊢
        cases leader <;> cases isKind <;> decide
    have kept := (StepBody.finishStep_frame computed).1 .mpcPrivateShare unwritten
    rw [← isShare, ← kept]
    -- CreateKeystore keeps the private share in the store
    rcases stored with ⟨-, created⟩ | ⟨-, rfl, -⟩
    · obtain ⟨_, _, _, _, _, _, _, -, -, -, -, -, -, -, rfl, -⟩ :=
        MpcDistributor.createKeystore_eq_ok created
      rfl
    · rfl

theorem Runs.summed
    (created : createContext cfg (if leader then .mpcGPKLeader else .mpcGPKPeer) mpcID peers [] =
      .ok ctx)
    (runs : Runs kenv cfg Prompt (ContextRun.start srv ctx) heard run) : run.Summed := by
  induction runs with
  | start => exact fun past => absurd past (Nat.not_lt_zero 2)
  | @move heard run next action before permits prompt stepped ih =>
    have keeps := before.keeps created
    have does := step_does stepped
    have length : run.ctx.mpcSteps.length = 5 := by
      simpa using congrArg List.length keeps.kinds
    rcases step_cases stepped with ⟨choice, j, rfl, isPc, finishes, isNext⟩ | calm
    · exact Finishes.summed ⟨.refl, isPc, permits, finishes, isNext, .refl⟩ keeps.kinds ih
    · intro past
      have was := calm.past 2 (by omega) past
      obtain ⟨step, poly, share, found, isBody, isShare, sum⟩ := ih was
      have here : 2 < next.ctx.mpcSteps.length := by
        rw [does.length]
        omega
      obtain ⟨step', found', becomes⟩ := does.becomes (List.getElem?_eq_getElem here)
      cases found.symm.trans found'
      have down : step.waiting ≤ 0 := by
        rcases passed_of_past was with passed | complete
        · exact (keeps.gate 2).passed (.inl passed) step found
        · exact keeps.down complete step (List.mem_of_getElem? found)
      refine ⟨_, poly, share, List.getElem?_eq_getElem here, ?_, ?_, sum⟩
      · rw [becomes.body_of_down down was, isBody]
      · rw [calm.store, isShare]

/-- The polynomial that a run has dealt the values of. -/
noncomputable def dealt (run : ContextRun) : (ZMod N)[X] :=
  ((run.ctx.mpcSteps.map Step.body)[2]?.map StepBody.dealt).getD 0

/-- What a run of a key generation has sent as private shares. -/
theorem Runs.dealt
    (created : createContext cfg (if leader then .mpcGPKLeader else .mpcGPKPeer) mpcID peers [] =
      .ok ctx)
    (runs : Runs kenv cfg Prompt (ContextRun.start srv ctx) heard run) :
    run.dealt.degree < ((cfg.mpcDegree + 1).toNat : WithBot ℕ) ∧
      ∀ mail ∈ mails run.sent, mail.2.stepID = 2 → ∃ peer ∈ run.ctx.peers, ∃ value : Int,
        peer.peerID = mail.1 ∧ mail.2.data = [value] ∧
        (value : ZMod N) = run.dealt.eval (peer.seed : ZMod N) := by
  have start := createContext_gpkStart created
  have reaches : Reaches kenv cfg (fun sender msg => (sender, msg) ∈ heard)
      (ContextRun.start srv ctx) run :=
    Relation.ReflTransGen.mono (fun _ _ within => within.moves) _ _ runs.within
  obtain ⟨views, -⟩ := start.path reaches
  obtain ⟨poly, isBody, isSize⟩ := createContext_skShare created
  have nothing : (ContextRun.start srv ctx).view.posted = [] := rfl
  have dealing : (ContextRun.start srv ctx).view.Deals .skShare 2 _ :=
    ⟨poly, isBody, isSize, by simp [nothing]⟩
  obtain ⟨poly', isBody', isSize', values⟩ := View.Reaches.deals views (.inl rfl)
    (fun _ _ path moves => moves.peers_early ((View.Reaches.kinds path).trans start.kinds))
    (by simp [View.Ordered, nothing]) dealing
  have isDealt : run.dealt = poly'.dealt := by
    have found : (run.ctx.mpcSteps.map Step.body)[2]? = some (.skShare poly') := isBody'
    rw [ContextRun.dealt, found]
    rfl
  rw [isDealt]
  constructor
  · rw [← isSize']
    exact degree_polyOf_lt _ _
  · exact fun mail sent isStep => values mail (List.mem_append_left _ sent) isStep

end ContextRun

/-- Interpolation in the group of points of the multiples by values of one polynomial. -/
theorem lagrangeECC_of_polynomial {E : Type} [AddCommGroup E] [Module (ZMod N) E] {curve : Curve}
    (law : CurveLaw curve E) (positive : 0 < k) {order : Assoc Nat (Int × Int)}
    (nodes : Nodes (order.map fun entry => (entry.1 : Int)) k) (inside : k ≤ order.length)
    {poly : (ZMod N)[X]} (degree : poly.degree < k)
    (values : ∀ entry ∈ order, law.coords (poly.eval (entry.1 : ZMod N) • law.base) = some entry.2)
    {result : Point} (interpolated : lagrangeECC curve
      (order.map fun entry => some ((entry.2.1.natAbs : Int), (entry.2.2.natAbs : Int)))
      (order.map fun entry => (entry.1 : Int)) ((k : Int) - 1) = .ok result) :
    result = law.coords (poly.eval 0 • law.base) := by
  let shares := order.map fun entry => ((poly.eval (entry.1 : ZMod N)).val : Int)
  have enough : k ≤ shares.length := by simpa [shares] using inside
  obtain ⟨s, recovered, -, -, isResult⟩ := lagrangeECC_shares law positive nodes enough inside
    (fun i below entry found => ⟨((poly.eval (entry.1 : ZMod N)).val : Int), by simp [found],
      by simp [shares, found], by
        simpa [ZMod.natCast_zmod_val] using values entry (List.mem_of_getElem? found)⟩)
    interpolated
  obtain ⟨t, again, -, -, atZero⟩ := lagrange_of_polynomial nodes enough degree fun i below => by
    have found := List.getElem?_eq_getElem (below.trans_le inside)
    rw [residues_of_getElem? (by rw [List.getElem?_map, found]; rfl),
      residues_of_getElem? (by rw [List.getElem?_map, found]; rfl)]
    simp
  cases recovered.symm.trans again
  rw [isResult, atZero]

/-! ### The group -/

noncomputable def Member.dealt : Member → (ZMod N)[X]
  | .registered run | .removed run => run.dealt
  | _ => 0

namespace Deployment

variable {env : NodeEnv} {cfg : Config} {group : List NodeID} {leader : NodeID} {mpcID : Nat}
  {d : Deployment} {p q : NodeID} {srv srvQ : MpcDistributor} {node nodeQ : Node}
  {run runQ : ContextRun}

theorem Sound.same_peers (sound : Sound env cfg group leader mpcID d) (small : group.length ≤ 256)
    (fits : Fits env cfg group leader mpcID d p srv node) (has : node.member.Has run)
    (fitsQ : Fits env cfg group leader mpcID d q srvQ nodeQ) (hasQ : nodeQ.member.Has runQ) :
    run.ctx.peers = runQ.ctx.peers := by
  -- each has the table of the leader
  have ofLeader {r : NodeID} {srvR : MpcDistributor} {nodeR : Node} {runR : ContextRun}
      (fitsR : Fits env cfg group leader mpcID d r srvR nodeR) (hasR : nodeR.member.Has runR) :
      ∃ nodeL runL, d leader = some nodeL ∧ nodeL.member.Has runL ∧
        runR.ctx.peers = runL.ctx.peers := by
    by_cases leads : r = leader
    · subst leads
      exact ⟨nodeR, runR, fitsR.here, hasR, rfl⟩
    · obtain ⟨srvL, nodeL, runL, fitsL, hasL, same, -⟩ := sound.peers small leads fitsR hasR
      exact ⟨nodeL, runL, fitsL.here, hasL, same⟩
  obtain ⟨nodeL, runL, hereL, hasL, same⟩ := ofLeader fits has
  obtain ⟨nodeL', runL', hereL', hasL', same'⟩ := ofLeader fitsQ hasQ
  cases hereL.symm.trans hereL'
  rw [same, same', has_unique hasL hasL']

/-- What has come to a node, from others or from itself. -/
def Hears (node : Node) (run : ContextRun) : NodeID → MpcMessage → Prop :=
  run.view.Heard fun sender msg => (sender, msg) ∈ node.heard.map Letter.entry

theorem Sound.sent_of_hears (sound : Sound env cfg group leader mpcID d)
    (fits : Fits env cfg group leader mpcID d p srv node) (has : node.member.Has run)
    (hears : Hears node run sender msg) :
    ∃ srvQ nodeQ runQ, Fits env cfg group leader mpcID d sender srvQ nodeQ ∧
      nodeQ.member.Has runQ ∧ (p, msg) ∈ mails runQ.sent := by
  rcases hears with arrived | ⟨isOwn, sent⟩
  · obtain ⟨letter, heard, same⟩ := List.mem_map.mp arrived
    cases same
    obtain ⟨-, -, isReceiver, srvQ, nodeQ, runQ, fitsQ, hasQ, found⟩ :=
      sound.sender (fits.came letter (fits.heard.subset heard))
    exact ⟨srvQ, nodeQ, runQ, fitsQ, hasQ, mem_mails_iff.mpr
      ⟨letter.parcel, List.mem_of_getElem? found, fits.messages letter heard, by rw [isReceiver]⟩⟩
  · have isSelf : run.view.srv.self = p := fits.run_self has
    rw [isSelf] at isOwn sent
    exact ⟨srv, node, run, isOwn ▸ fits, has, sent⟩

theorem hears_of_entered {m : StepMessage}
    (entered : m ∈ run.entered (node.heard.map Letter.entry) k) :
    ∃ msg, Hears node run m.peerID msg ∧ msg.stepID = k ∧ m.data = msg.data := by
  rcases ContextRun.mem_entered entered with ⟨entry, heard, isStep, rfl⟩ |
    ⟨parcel, sent, isMessage, toSelf, isStep, rfl⟩
  · exact ⟨entry.2, .inl heard, isStep, rfl⟩
  · exact ⟨parcel.msg, .inr ⟨rfl, mem_mails_iff.mpr ⟨parcel, sent, isMessage, by rw [toSelf]; rfl⟩⟩,
      isStep, rfl⟩

/-- The polynomial that a node has dealt. -/
noncomputable def dealt (d : Deployment) (q : NodeID) : (ZMod N)[X] :=
  ((d q).map fun node => node.member.dealt).getD 0

theorem dealt_eq (here : d q = some node) (has : node.member.Has run) : d.dealt q = run.dealt := by
  rw [dealt, here]
  rcases has with isMember | isMember
  · exact congrArg Member.dealt isMember
  · exact congrArg Member.dealt isMember

/-- The polynomial that the group shares the values of. -/
noncomputable def secret (d : Deployment) (group : List NodeID) : (ZMod N)[X] :=
  (group.map d.dealt).sum

theorem degree_sum_lt {list : List (ZMod N)[X]}
    (each : ∀ poly ∈ list, poly.degree < (k : WithBot ℕ)) : list.sum.degree < (k : WithBot ℕ) := by
  induction list with
  | nil => exact WithBot.bot_lt_coe k
  | cons poly rest ih =>
    rw [List.sum_cons]
    refine lt_of_le_of_lt (degree_add_le _ _) (max_lt ?_ ?_)
    · exact each poly List.mem_cons_self
    · exact ih fun other member => each other (List.mem_cons_of_mem _ member)

section

variable (ends : Ends env cfg group leader mpcID d)

include ends

theorem Ends.seed_eq (fits : Fits env cfg group leader mpcID d p srv node)
    (has : node.member.Has run) {peer : PeerInfo} (listed : peer ∈ run.ctx.peers) :
    getPeerSeed run.ctx.peers peer.peerID = peer.seed := by
  have distinct : (run.ctx.peers.map PeerInfo.peerID).Nodup :=
    (ends.sound.ids_perm ends.small fits has).nodup_iff.mpr ends.sound.distinct
  have found := mem_of_getPeerSeed (.inr (List.mem_map_of_mem listed))
  exact congrArg PeerInfo.seed (List.inj_on_of_nodup_map distinct found listed rfl)

theorem Ends.deals (fits : Fits env cfg group leader mpcID d p srv node)
    (has : node.member.Has run) : (d.dealt p).degree < (cfg.mpcSchnrThr.toNat : WithBot ℕ) ∧
      ∀ mail ∈ mails run.sent, mail.2.stepID = 2 → ∃ value : Int, mail.2.data = [value] ∧
        (value : ZMod N) = (d.dealt p).eval (getPeerSeed run.ctx.peers mail.1 : ZMod N) := by
  obtain ⟨ctx, origin, runs⟩ := fits.history.runs has
  obtain ⟨degree, values⟩ := runs.dealt origin.created
  rw [dealt_eq fits.here has]
  refine ⟨by simpa [Config.mpcDegree] using degree, fun mail sent isStep => ?_⟩
  obtain ⟨peer, listed, value, isReceiver, content, isValue⟩ := values mail sent isStep
  refine ⟨value, content, ?_⟩
  rw [isValue, ← isReceiver, ends.seed_eq fits has listed]

theorem Ends.degree_secret : (d.secret group).degree < (cfg.mpcSchnrThr.toNat : WithBot ℕ) := by
  refine degree_sum_lt fun poly member => ?_
  obtain ⟨q, inGroup, rfl⟩ := List.mem_map.mp member
  obtain ⟨srv, node, fits⟩ := ends.sound.inside q inGroup
  obtain ⟨run, isMember, -⟩ := ends.finished fits
  exact (ends.deals fits (.inr isMember)).1

theorem Ends.hears_value (fits : Fits env cfg group leader mpcID d p srv node)
    (has : node.member.Has run) (hears : Hears node run sender msg) (isStep : msg.stepID = 2) :
    ∃ value : Int, msg.data = [value] ∧
      (value : ZMod N) = (d.dealt sender).eval (getPeerSeed run.ctx.peers p : ZMod N) := by
  obtain ⟨srvQ, nodeQ, runQ, fitsQ, hasQ, sent⟩ := ends.sound.sent_of_hears fits has hears
  rw [ends.sound.same_peers ends.small fits has fitsQ hasQ]
  exact (ends.deals fitsQ hasQ).2 _ sent isStep

/-- The share of a node is a value of the sum of all polynomials. -/
theorem Ends.share_eq (fits : Fits env cfg group leader mpcID d p srv node)
    (has : node.member.Has run) (returned : run.pc = .returned none) :
    ∃ share : Int, run.ctx.mpcResult.result .mpcPrivateShare = some [share] ∧
      (share : ZMod N) = (d.secret group).eval (getPeerSeed run.ctx.peers p : ZMod N) := by
  obtain ⟨step, msgs, found, collected, everyone, entered⟩ :=
    ends.counted fits has returned le_rfl (by decide)
  obtain ⟨ctx, origin, runs⟩ := fits.history.runs has
  obtain ⟨step', poly, share, found', isBody, isShare, sum⟩ :=
    runs.summed origin.created (by rw [returned]; trivial)
  cases found.symm.trans found'
  rw [isBody] at collected
  have message : poly.message =
      msgs.map fun m => (getPeerSeed run.ctx.peers m.peerID, m.data.getD 0 0) := collected
  refine ⟨share, isShare, ?_⟩
  calc (share : ZMod N)
      = (msgs.map fun m => ((m.data.getD 0 0 : Int) : ZMod N)).sum := by
        rw [sum, message, List.map_map]
        rfl
    _ = (msgs.map fun m =>
          (d.dealt m.peerID).eval (getPeerSeed run.ctx.peers p : ZMod N)).sum := by
        refine congrArg List.sum (List.map_congr_left fun m member => ?_)
        obtain ⟨msg, hears, isStep, content⟩ := hears_of_entered (entered member)
        obtain ⟨value, isData, isValue⟩ := ends.hears_value fits has hears isStep
        rw [content, isData, ← isValue]
        rfl
    _ = (group.map fun q =>
          (d.dealt q).eval (getPeerSeed run.ctx.peers p : ZMod N)).sum := by
        rw [← (everyone.map _).sum_eq, List.map_map]
        rfl
    _ = (d.secret group).eval (getPeerSeed run.ctx.peers p : ZMod N) := by
        rw [secret, eval_listSum, List.map_map]
        rfl

/-- Any threshold of the shares recovers the value of the sum at zero. -/
theorem Ends.recovers (fits : Fits env cfg group leader mpcID d p srv node)
    (has : node.member.Has run) {share : NodeID → Int}
    (values : ∀ q ∈ group,
      (share q : ZMod N) = (d.secret group).eval (getPeerSeed run.ctx.peers q : ZMod N))
    {S : List NodeID} (inside : S ⊆ group) (distinct : S.Nodup)
    (length : S.length = cfg.mpcSchnrThr) :
    ∃ s : Int, lagrange (S.map share) (S.map fun q => (getPeerSeed run.ctx.peers q : Int))
      cfg.mpcDegree = .ok s ∧ 0 ≤ s ∧ s < N ∧ (s : ZMod N) = (d.secret group).eval 0 := by
  have seeded := ends.seeded fits has
  have listed {q : NodeID} (member : q ∈ S) : q ∈ run.ctx.peers.map PeerInfo.peerID :=
    (ends.sound.ids_perm ends.small fits has).mem_iff.mpr (inside member)
  have seeds : (S.map fun q => (getPeerSeed run.ctx.peers q : Int)) =
      (S.map (getPeerSeed run.ctx.peers)).map fun seed : Nat => (seed : Int) := by
    rw [List.map_map]
    rfl
  have nodes : Nodes (S.map fun q => (getPeerSeed run.ctx.peers q : Int)) S.length := by
    rw [seeds]
    refine .of_seeds (List.length_map _).ge ?_ fun seed member => ?_
    · exact distinct.map_on fun p inP q inQ same =>
        getPeerSeed_injective seeded.distinct (listed inP) (listed inQ) same
    · obtain ⟨q, inS, rfl⟩ := List.mem_map.mp member
      have range := (seeded.range _ (mem_of_getPeerSeed (.inr (listed inS)))).2
      simp only at range
      omega
  have degree : (d.secret group).degree < (S.length : WithBot ℕ) := by
    have below := ends.degree_secret
    rwa [← length, Int.toNat_natCast] at below
  rw [Config.mpcDegree, ← length]
  refine lagrange_of_polynomial nodes (List.length_map share).ge degree fun i below => ?_
  have inS : S[i]? = some (S.get ⟨i, below⟩) := List.getElem?_eq_getElem below
  rw [residues_of_getElem? (by rw [List.getElem?_map, inS]; rfl),
    residues_of_getElem? (by rw [List.getElem?_map, inS]; rfl),
    values _ (inside (List.get_mem S ⟨i, below⟩)), Int.cast_natCast]

end

theorem Fits.reaches
    (runs : ContextRun.Runs env.toKeyEnv cfg ContextRun.Prompt (.start srv ctx)
      (node.heard.map Letter.entry) run) :
    ContextRun.Reaches env.toKeyEnv cfg
      (fun sender msg => (sender, msg) ∈ node.heard.map Letter.entry) (.start srv ctx) run :=
  Relation.ReflTransGen.mono (fun _ _ within => within.moves) _ _ runs.within

section Key

variable {E : Type} [AddCommGroup E] [Module (ZMod N) E] (law : CurveLaw env.toKeyEnv.curve E)

section

variable (ends : Ends env cfg group leader mpcID d)
  (fits : Fits env cfg group leader mpcID d p srv node) (has : node.member.Has run)

include ends fits has

/-- The point that a node shows is the multiple of the base point by its share. -/
theorem Ends.hears_point (hears : Hears node run sender msg) (isStep : msg.stepID = 3) :
    ∃ x y : Int, msg.data = [x, y] ∧
      law.coords ((d.secret group).eval (getPeerSeed run.ctx.peers sender : ZMod N) • law.base) =
        some (x, y) := by
  obtain ⟨srvQ, nodeQ, runQ, fitsQ, hasQ, sent⟩ := ends.sound.sent_of_hears fits has hears
  obtain ⟨ctxQ, originQ, runsQ⟩ := fitsQ.history.runs hasQ
  have start := createContext_gpkStart originQ.created
  obtain ⟨other, isRemoved, returned⟩ := ends.finished fitsQ
  cases has_unique hasQ (.inr isRemoved)
  obtain ⟨share, isShare, isValue⟩ := ends.share_eq fitsQ hasQ returned
  obtain ⟨share', x, y, nonneg, small, isPoint, isPrivate, isPublic⟩ :=
    start.shared (Fits.reaches runsQ) (by rw [returned]; trivial)
  cases isShare.symm.trans isPrivate
  obtain ⟨value, x', y', isValue', isX, isY, content⟩ :=
    start.shows (Fits.reaches runsQ) sent isStep
  cases isPublic.symm.trans isValue'
  cases isX
  cases isY
  rw [law.scalarBaseMult_int nonneg small] at isPoint
  refine ⟨x, y, content, ?_⟩
  rw [ends.sound.same_peers ends.small fits has fitsQ hasQ, ← isValue]
  exact Outcome.ok.inj isPoint

/-- The key of a node is the multiple of the base point by the secret. -/
theorem Ends.key_eq (returned : run.pc = .returned none) :
    0 < cfg.mpcSchnrThr ∧ ∃ gpk : Int × Int,
      run.ctx.mpcResult.result .publicKeyResult = some [gpk.1, gpk.2] ∧
      law.coords ((d.secret group).eval 0 • law.base) = some gpk := by
  obtain ⟨ctx, origin, runs⟩ := fits.history.runs has
  have start := createContext_gpkStart origin.created
  obtain ⟨choice, u, v, finishes⟩ :=
    start.finished (Fits.reaches runs) (by decide : 3 < 5) (by rw [returned]; trivial)
  obtain ⟨pointer, order, gpk, share, keyStore, encoded, key⟩ := start.finishes_key finishes
  -- the leader starts without seeds, a follower with the leader's
  have fresh : (∀ peer ∈ ctx.peers, peer.seed = 0) ∨ ctx.peers = run.ctx.peers := by
    by_cases leads : p = leader
    · rw [decide_eq_true leads] at origin
      refine .inl fun peer listed => ?_
      rw [origin.peers_of_leader.2] at listed
      obtain ⟨peerID, -, rfl⟩ := List.mem_map.mp listed
      rfl
    · rw [decide_eq_false leads] at origin
      exact .inr (peers_of_follower origin runs).symm
  have shown := start.shown finishes key fresh rfl
  have values : ∀ entry ∈ order,
      law.coords ((d.secret group).eval (entry.1 : ZMod N) • law.base) = some entry.2 := by
    intro entry member
    obtain ⟨sender, msg, hears, isStep, isSeed, -, content⟩ := shown.origin entry member
    obtain ⟨x, y, content', isPoint⟩ := ends.hears_point law fits has hears isStep
    rw [isSeed] at isPoint
    cases content.symm.trans content'
    exact isPoint
  obtain ⟨enough, calculated, -⟩ := MpcPointGenerator.calculateResult_eq_ok key.calculated
  have degree := lagrangeECC_degree calculated
  rw [Config.mpcDegree] at degree calculated
  have count : ((cfg.mpcSchnrThr.toNat : Nat) : Int) = cfg.mpcSchnrThr := by omega
  have seeds : (order.map fun entry => (entry.1 : Int)) =
      (order.map Prod.fst).map fun seed : Nat => (seed : Int) := by
    rw [List.map_map]
    rfl
  -- distinct seeds in [1, 0xFFFFFE], so no two are equal modulo N
  have nodes : Nodes (order.map fun entry => (entry.1 : Int)) cfg.mpcSchnrThr.toNat := by
    rw [seeds]
    refine .of_seeds (by rw [List.length_map]; omega) shown.distinct fun seed member => ?_
    obtain ⟨entry, listed, rfl⟩ := List.mem_map.mp member
    obtain ⟨sender, msg, -, -, isSeed, nonzero, -⟩ := shown.origin entry listed
    have inTable := mem_of_getPeerSeed (.inl (isSeed.symm ▸ nonzero))
    have range := ((ends.seeded fits has).range _ inTable).2
    simp only [isSeed] at range
    omega
  rw [← count] at calculated
  refine ⟨by omega, gpk, (start.stored_key finishes key).1, ?_⟩
  exact (lagrangeECC_of_polynomial law (by omega) nodes (by omega) ends.degree_secret values
    calculated).symm

end

end Key
end Deployment

/-- Let the nodes of a group generate a key, with the curve of the repository, over a network that
delivers what is sent, in any order and at any time. When nothing more can happen and no node has
met an error, all nodes have the same table of seeds and the same key. What each has dealt are
values of a polynomial of its own of a degree below the threshold; the private shares are the values
of the sum of these at the seeds, and any threshold of them recovers the private key. -/
theorem generated_key_recovers (env : NodeEnv) (cfg : Config)
    (ecmult : Ecmult)
    (multiplies : BitCurve.EcmultLaw ecmult) (isCurve : env.curve = BitCurve.curve ecmult)
    (group : List NodeID) (leader : NodeID) (mpcID : Nat) (d d' : Deployment)
    (small : group.length ≤ 256) (starts : Deployment.Starts cfg group leader mpcID d)
    (reaches : Deployment.Reaches env cfg group d d') (quiet : Deployment.Quiet env cfg group d')
    (unfailed : Deployment.Unfailed d') :
    ∃ (table : List PeerInfo) (gpk : Int × Int) (share : NodeID → Int),
      (table.map PeerInfo.peerID).Perm group ∧ (table.map PeerInfo.seed).Nodup ∧
      (∀ p ∈ group, (d'.dealt p).degree < (cfg.mpcSchnrThr.toNat : WithBot ℕ) ∧
        ∃ node run, d' p = some node ∧ node.member = .removed run ∧
        run.pc = .returned none ∧ run.ctx.peers = table ∧
        (∀ mail ∈ mails run.sent, mail.2.stepID = 2 → ∃ value : Int, mail.2.data = [value] ∧
          (value : ZMod N) = (d'.dealt p).eval (getPeerSeed table mail.1 : ZMod N)) ∧
        run.ctx.mpcResult.result .publicKeyResult = some [gpk.1, gpk.2] ∧
        run.ctx.mpcResult.result .mpcPrivateShare = some [share p] ∧
        (share p : ZMod N) = (group.map d'.dealt).sum.eval (getPeerSeed table p : ZMod N)) ∧
      ∀ S : List NodeID, S ⊆ group → S.Nodup → S.length = cfg.mpcSchnrThr → ∃ s : Int,
        lagrange (S.map share) (S.map fun q => (getPeerSeed table q : Int)) cfg.mpcDegree = .ok s ∧
        env.curve.scalarBaseMult (intBytes s) = .ok (some gpk) := by
  have ends : Deployment.Ends env cfg group leader mpcID d' :=
    .of_reaches small starts reaches quiet unfailed
  obtain ⟨law⟩ : Nonempty (CurveLaw env.curve S256.Group) :=
    ⟨isCurve ▸ BitCurve.curveLaw multiplies⟩
  obtain ⟨srvL, nodeL, fitsL⟩ := ends.sound.inside leader ends.sound.member
  obtain ⟨runL, isMemberL, returnedL⟩ := ends.finished fitsL
  have hasL : nodeL.member.Has runL := .inr isMemberL
  obtain ⟨-, gpk, -, isKey⟩ := ends.key_eq law fitsL hasL returnedL
  -- what the leader has is what every node has
  have each (p : NodeID) : ∃ share : Int, p ∈ group →
      (d'.dealt p).degree < (cfg.mpcSchnrThr.toNat : WithBot ℕ) ∧ ∃ node run, d' p = some node ∧
      node.member = .removed run ∧ run.pc = .returned none ∧ run.ctx.peers = runL.ctx.peers ∧
      (∀ mail ∈ mails run.sent, mail.2.stepID = 2 → ∃ value : Int, mail.2.data = [value] ∧
        (value : ZMod N) = (d'.dealt p).eval (getPeerSeed runL.ctx.peers mail.1 : ZMod N)) ∧
      run.ctx.mpcResult.result .publicKeyResult = some [gpk.1, gpk.2] ∧
      run.ctx.mpcResult.result .mpcPrivateShare = some [share] ∧
      (share : ZMod N) = (d'.secret group).eval (getPeerSeed runL.ctx.peers p : ZMod N) := by
    by_cases member : p ∈ group
    · obtain ⟨srv, node, fits⟩ := ends.sound.inside p member
      obtain ⟨run, isMember, returned⟩ := ends.finished fits
      obtain ⟨share, isShare, isValue⟩ := ends.share_eq fits (.inr isMember) returned
      obtain ⟨-, gpk', isStored, isKey'⟩ := ends.key_eq law fits (.inr isMember) returned
      cases isKey.symm.trans isKey'
      obtain ⟨degree, deals⟩ := ends.deals fits (.inr isMember)
      have same := ends.sound.same_peers small fits (.inr isMember) fitsL hasL
      exact ⟨share, fun _ => ⟨degree, node, run, fits.here, isMember, returned, same, same ▸ deals,
        isStored, isShare, same ▸ isValue⟩⟩
    · exact ⟨0, fun inside => absurd inside member⟩
  choose share isShare using each
  refine ⟨runL.ctx.peers, gpk, share, ends.sound.ids_perm small fitsL hasL,
    (ends.seeded fitsL hasL).distinct, isShare, fun S inside distinct length => ?_⟩
  have values (q : NodeID) (member : q ∈ group) :
      (share q : ZMod N) = (d'.secret group).eval (getPeerSeed runL.ctx.peers q : ZMod N) := by
    obtain ⟨-, -, -, -, -, -, -, -, -, -, isValue⟩ := isShare q member
    exact isValue
  obtain ⟨s, recovered, nonneg, isSmall, atZero⟩ :=
    ends.recovers fitsL hasL values inside distinct length
  refine ⟨s, recovered, ?_⟩
  rw [law.scalarBaseMult_int nonneg isSmall, atZero, isKey]

namespace PairSample

def curveEnv : NodeEnv := { env with curve := BitCurve.curve Reference.ecmult }

private theorem curve_done :
    (run curveEnv (handshake ++ generation)).map bothDone = some true := by
  decide +kernel

end PairSample

theorem generated_key_recovers_pair :
    ∃ d d' node run, ∃ (gpk : Int × Int) (share seed s : Int),
      Deployment.Starts ⟨1, 2⟩ [1, 2] 1 7 d ∧
      Deployment.Reaches PairSample.curveEnv ⟨1, 2⟩ [1, 2] d d' ∧
      Deployment.Quiet PairSample.curveEnv ⟨1, 2⟩ [1, 2] d' ∧ Deployment.Unfailed d' ∧
      d' 2 = some node ∧ node.member = .removed run ∧
      run.ctx.mpcResult.result .publicKeyResult = some [gpk.1, gpk.2] ∧
      run.ctx.mpcResult.result .mpcPrivateShare = some [share] ∧
      lagrange [share] [seed] 0 = .ok s ∧
      PairSample.curveEnv.curve.scalarBaseMult (intBytes s) = .ok (some gpk) := by
  obtain ⟨nodes, ran, isDone⟩ := Option.map_eq_some_iff.mp PairSample.curve_done
  obtain ⟨leader, created, reaches⟩ := PairSample.reaches_of_run ran
  have starts := PairSample.starts created
  obtain ⟨quiet, unfailed⟩ :=
    PairSample.rests_of_done (Deployment.Reaches.sound starts reaches) isDone
  obtain ⟨table, gpk, share, -, -, each, recovers⟩ :=
    generated_key_recovers PairSample.curveEnv ⟨1, 2⟩ Reference.ecmult Reference.ecmult_law rfl
      [1, 2] 1 7 _ _ (by decide) starts reaches quiet unfailed
  obtain ⟨-, node, run, here, isMember, -, -, -, isKey, isShare, -⟩ := each 2 (by simp)
  obtain ⟨s, recovered, isPoint⟩ := recovers [2] (by simp) (by simp) rfl
  exact ⟨_, _, node, run, gpk, share 2, _, s, starts, reaches, quiet, unfailed, here, isMember,
    isKey, isShare, recovered, isPoint⟩

end SchnorrMpc
