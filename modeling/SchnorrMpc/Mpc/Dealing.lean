import SchnorrMpc.Mpc.Mail
import SchnorrMpc.Schnorr.Recovery

/-!
# Shares of a random polynomial

Every node draws a polynomial when it initializes the step of the key or of the
nonce, and sends every peer the value at the seed of that peer. What it sends
are values of one polynomial, whatever it takes in.
-/
namespace SchnorrMpc

open Lib S256 Polynomial

variable {random : Randomness} {env : Env} {privateKey publicKey : ResultKey}
  {orders : List (Assoc Nat Int)} {store' : BaseMpcResult} {body : StepBody} {i : Nat}
  {poly : RandomPolynomialValue}

/-! ### The step -/

namespace RandomPolynomialValue

variable {poly poly' : RandomPolynomialValue} {peers : List PeerInfo}

/-- The polynomial with these coefficients. -/
noncomputable def dealt (poly : RandomPolynomialValue) : (ZMod N)[X] :=
  polyOf poly.randCoefficient.length (residues poly.randCoefficient)

theorem dealt_congr (same : poly'.randCoefficient = poly.randCoefficient) :
    poly'.dealt = poly.dealt := by
  simp only [dealt, same]

/-- What is to be sent are values of the polynomial at the seeds. -/
theorem initStep_deals (inits : poly.initStep peers random = .ok poly') :
    poly'.randCoefficient.length = poly.randCoefficient.length ∧
      ∀ (i : Nat) (value : Int), poly'.polyValue[i]? = some value →
        ∃ peer : PeerInfo, peers[i]? = some peer ∧
          (value : ZMod N) = poly'.dealt.eval (peer.seed : ZMod N) := by
  unfold initStep at inits
  split at inits
  next => cases inits
  next s _ =>
    simp only [initializeFrom, Outcome.bind_eq_ok_iff] at inits
    obtain ⟨cof, -, values, evaluated, built⟩ := inits
    cases built
    have length : (cof.take poly.randCoefficient.length ++
        poly.randCoefficient.drop cof.length).length = poly.randCoefficient.length := by
      simp only [List.length_append, List.length_take, List.length_drop]
      omega
    refine ⟨length, fun i value isValue => ?_⟩
    have pairs := Outcome.forall₂_of_mapM evaluated
    obtain ⟨inside, rfl⟩ := List.getElem?_eq_some_iff.mp isValue
    have read := pairs.get (pairs.length_eq ▸ inside) inside
    simp only [List.get_eq_getElem, List.getElem_range] at read
    simp only [Outcome.bind_eq_ok_iff, Outcome.index_eq_ok_iff] at read
    obtain ⟨peer, isPeer, value'⟩ := read
    obtain ⟨result, returned, -, -, cast⟩ := evaluatePoly_spec length.ge (peer.seed : Int)
    cases returned.symm.trans value'
    refine ⟨peer, isPeer, ?_⟩
    rw [cast]
    simp only [dealt, length]
    norm_cast

theorem finish_kept {store : BaseMpcResult}
    (finished : poly.finish env privateKey publicKey orders store = .ok (poly', store')) :
    poly'.randCoefficient = poly.randCoefficient ∧ poly'.message = poly.message := by
  obtain ⟨order, -, -, -, -, rfl, -⟩ := finish_eq_ok finished
  exact ⟨rfl, rfl⟩

/-- The private share is a residue, and the public share its multiple of the base point. -/
theorem finish_paired {store : BaseMpcResult}
    (finished : poly.finish env privateKey publicKey orders store = .ok (poly', store')) :
    ∃ share x y : Int, 0 ≤ share ∧ share < N ∧
      env.curve.scalarBaseMult (intBytes share) = .ok (some (x, y)) ∧
      store' = (store.setValue privateKey [share]).setValue publicKey [x, y] := by
  obtain ⟨order, -, x, y, -, rfl, isPoint, rfl⟩ := finish_eq_ok finished
  have range := foldl_add_range order (fun entry => entry.2) ⟨le_rfl, N_pos⟩
  exact ⟨_, x, y, range.1, range.2, isPoint, rfl⟩

/-- The private share is the sum of what has been filed. -/
theorem finish_sum {order : Assoc Nat Int} {store : BaseMpcResult} (isOrder : orders = [order])
    (perm : order.Perm poly.message) (differs : publicKey ≠ privateKey)
    (finished : poly.finish env privateKey publicKey orders store = .ok (poly', store')) :
    ∃ share : Int, store'.result privateKey = some [share] ∧
      (share : ZMod N) = (poly.message.map fun entry => (entry.2 : ZMod N)).sum := by
  subst isOrder
  obtain ⟨_, _, x, y, same, rfl, -, rfl⟩ := finish_eq_ok finished
  cases same
  refine ⟨_, by simp [differs.symm]; rfl, ?_⟩
  have summed := cast_foldl_add order (fun entry => entry.2) 0
  rw [Int.cast_zero, zero_add] at summed
  rw [← (perm.map fun entry : Nat × Int => (entry.2 : ZMod N)).sum_eq]
  exact summed

end RandomPolynomialValue

theorem StepBody.eq_rskShare (isKind : body.kind = .rskShare) : ∃ poly, body = .rskShare poly := by
  cases body with
  | rskShare poly => exact ⟨poly, rfl⟩
  | _ => cases isKind

/-- The bodies that deal shares, of a key and of a nonce. -/
def Dealing (share : RandomPolynomialValue → StepBody) : Prop :=
  share = .skShare ∨ share = .rskShare

namespace Dealing

variable {share : RandomPolynomialValue → StepBody} (dealing : Dealing share)
  {poly : RandomPolynomialValue} {body : StepBody} {peers peers' : List PeerInfo} {env : Env}
  {store store' : BaseMpcResult}

include dealing

theorem inits (inits : (share poly).initStep env peers store random = some (.ok (body, peers'))) :
    ∃ poly', body = share poly' ∧ peers' = peers ∧ poly.initStep peers random = .ok poly' := by
  rcases dealing with rfl | rfl
  all_goals
    simp only [StepBody.initStep, Option.some.injEq, Outcome.bind_eq_ok_iff] at inits
    obtain ⟨poly', drawn, same⟩ := inits
    cases same
    exact ⟨poly', rfl, rfl, drawn⟩

theorem creates : (share poly).createMessage peers = poly.createMessage peers := by
  rcases dealing with rfl | rfl <;> rfl

theorem handles {msg : StepMessage} {accepted : Bool}
    (handled : (share poly).handleMessage peers msg = .ok (accepted, body)) :
    ∃ poly', body = share poly' ∧ poly'.randCoefficient = poly.randCoefficient := by
  obtain ⟨poly', taken, rfl⟩ : ∃ poly', poly.handleMessage peers msg = .ok (accepted, poly') ∧
      body = share poly' := by
    rcases dealing with rfl | rfl
    all_goals
      simp only [StepBody.handleMessage, Outcome.bind_eq_ok_iff] at handled
      obtain ⟨⟨_, poly'⟩, taken, same⟩ := handled
      cases same
      exact ⟨poly', taken, rfl⟩
  refine ⟨poly', rfl, ?_⟩
  rcases RandomPolynomialValue.handleMessage_cases taken with
    ⟨-, rfl, -⟩ | ⟨-, -, value, -, rfl⟩ <;> rfl

theorem finishes {cfg : Config} {orders : Orders}
    (finished : (share poly).finishStep env cfg peers store orders = .ok (body, store')) :
    ∃ poly', body = share poly' ∧ poly'.randCoefficient = poly.randCoefficient := by
  rcases dealing with rfl | rfl
  all_goals
    simp only [StepBody.finishStep, Outcome.bind_eq_ok_iff] at finished
    obtain ⟨⟨poly', _⟩, summed, same⟩ := finished
    cases same
    exact ⟨poly', rfl, (RandomPolynomialValue.finish_kept summed).1⟩

end Dealing

/-! ### The run -/

namespace View

variable {kenv : KeyEnv} {cfg : Config} {arrives : NodeID → MpcMessage → Prop} {v v' : View}
  {share : RandomPolynomialValue → StepBody} {k size : Nat}

/-- The messages of step `k` are shares of one polynomial. -/
def Deals (share : RandomPolynomialValue → StepBody) (k size : Nat) (v : View) : Prop :=
  ∃ poly, v.bodies[k]? = some (share poly) ∧ poly.randCoefficient.length = size ∧
    ∀ mail ∈ v.posted, mail.2.stepID = k → ∃ peer ∈ v.peers, ∃ value : Int,
      peer.peerID = mail.1 ∧ mail.2.data = [value] ∧
      (value : ZMod N) = poly.dealt.eval (peer.seed : ZMod N)

theorem Deals.keep (deals : v.Deals share k size)
    (peers : v'.peers = v.peers ∨ ¬v.stage.Reached k) (ordered : v.Ordered)
    (body : ∀ poly, v.bodies[k]? = some (share poly) → ∃ poly',
      v'.bodies[k]? = some (share poly') ∧ poly'.randCoefficient = poly.randCoefficient)
    (posted : ∀ mail ∈ v'.posted, mail.2.stepID = k → mail ∈ v.posted) :
    v'.Deals share k size := by
  obtain ⟨poly, isBody, isSize, shares⟩ := deals
  obtain ⟨poly', isBody', same⟩ := body poly isBody
  refine ⟨poly', isBody', same ▸ isSize, fun mail member isStep => ?_⟩
  have old := posted mail member isStep
  rcases peers with unchanged | early
  · rw [RandomPolynomialValue.dealt_congr same, unchanged]
    exact shares mail old isStep
  · exact absurd (isStep ▸ ordered mail old) early

/-- The same body is still there unless it is that of the step. -/
private theorem body_of_set {bodies : List StepBody} {body' : StepBody}
    (found : bodies[i]? = some body) (isBody : bodies[k]? = some (share poly))
    (changes : ∀ poly, body = share poly → ∃ poly', body' = share poly' ∧
      poly'.randCoefficient = poly.randCoefficient) :
    ∃ poly', (bodies.set i body')[k]? = some (share poly') ∧
      poly'.randCoefficient = poly.randCoefficient := by
  by_cases here : i = k
  · subst here
    obtain ⟨poly', rfl, same⟩ := changes poly (Option.some.inj (found.symm.trans isBody))
    exact ⟨poly', List.getElem?_set_self (List.getElem?_eq_some_iff.mp found).1, same⟩
  · exact ⟨poly, (List.getElem?_set_ne here).trans isBody, rfl⟩

/-- The shares that are made when the step is initialized. -/
theorem mem_mails_shares {srv : MpcDistributor} {contextID : Nat} {peers : List PeerInfo}
    {out : List OutMessage} {mail : Mail} (creates : poly.createMessage peers = .ok out)
    (member : mail ∈ mails (out.flatMap (ContextRun.parcels srv contextID i peers))) :
    ∃ (j : Nat) (peer : PeerInfo) (value : Int), peers[j]? = some peer ∧
      poly.polyValue[j]? = some value ∧ peer.peerID = mail.1 ∧ mail.2.data = [value] := by
  obtain ⟨parcel, isParcel, -, rfl⟩ := mem_mails_iff.mp member
  obtain ⟨item, inOut, made⟩ := List.mem_flatMap.mp isParcel
  obtain ⟨j, inside, rfl⟩ := List.getElem_of_mem inOut
  have pairs := RandomPolynomialValue.createMessage_eq_ok creates
  have within : j < peers.zipIdx.length := pairs.length_eq ▸ inside
  obtain ⟨value, isValue, isItem⟩ := pairs.get within inside
  simp only [List.get_eq_getElem, List.getElem_zipIdx, Nat.zero_add] at isValue isItem
  rw [isItem] at made
  obtain rfl := List.mem_singleton.mp made
  have listed : j < peers.length := List.length_zipIdx ▸ within
  exact ⟨j, _, value, List.getElem?_eq_getElem listed, isValue, rfl, rfl⟩

theorem Moves.deals (moves : Moves kenv cfg arrives v v') (dealing : Dealing share)
    (peers : v'.peers = v.peers ∨ ¬v.stage.Reached k) (ordered : v.Ordered)
    (deals : v.Deals share k size) : v'.Deals share k size := by
  cases moves with
  | handle i sender msg body body' accepted isBody heard isStep handled =>
    refine deals.keep peers ordered (fun poly isShare => body_of_set isBody isShare ?_)
      fun mail member _ => member
    rintro poly rfl
    exact dealing.handles handled
  | init i body body' random drawn out isStage isBody admissible inits creates =>
    by_cases here : i = k
    · subst here
      obtain ⟨poly, isShare, isSize, -⟩ := deals
      obtain rfl : body = share poly := Option.some.inj (isBody.symm.trans isShare)
      obtain ⟨poly', rfl, rfl, isDrawn⟩ := dealing.inits inits
      obtain ⟨length, values⟩ := RandomPolynomialValue.initStep_deals isDrawn
      refine ⟨poly', List.getElem?_set_self (List.getElem?_eq_some_iff.mp isBody).1,
        length.trans isSize, fun mail member isStep => ?_⟩
      rcases List.mem_append.mp member with was | new
      · -- nothing of the step has been posted before it is initialized
        have reached := ordered mail (List.mem_append_left _ was)
        rw [isStage, isStep] at reached
        exact absurd reached (Nat.lt_irrefl i)
      · obtain ⟨j, peer, value, isPeer, isValue, receiver, data⟩ :=
          mem_mails_shares (dealing.creates ▸ creates) new
        obtain ⟨other, isOther, cast⟩ := values j value isValue
        cases isPeer.symm.trans isOther
        exact ⟨peer, List.mem_of_getElem? isPeer, value, receiver, data, cast⟩
    · refine deals.keep peers ordered (fun poly isShare => ⟨poly, ?_, rfl⟩)
        fun mail member isStep => ?_
      · exact (List.getElem?_set_ne here).trans isShare
      · rcases List.mem_append.mp member with was | new
        · exact List.mem_append_left _ was
        · exact absurd ((mem_mails_parcels new).1.symm.trans isStep) here
  | mail i item rest isStage =>
    refine deals.keep peers ordered (fun poly isShare => ⟨poly, isShare, rfl⟩)
      fun mail member _ => ?_
    simpa [posted, isStage, Stage.pending] using member
  | finish i body body' choice store srv isStage isBody iterates finishes =>
    refine deals.keep peers ordered (fun poly isShare => body_of_set isBody isShare ?_)
      fun mail member _ => ?_
    · rintro poly rfl
      obtain ⟨_, finished, -⟩ := StepBody.finish_cases finishes
      exact dealing.finishes finished
    · exact List.mem_append_left _ (by simpa [posted, Stage.pending] using member)
  | fail | complete | crash =>
    refine deals.keep peers ordered (fun poly isShare => ⟨poly, isShare, rfl⟩)
      fun mail member _ => ?_
    exact List.mem_append_left _ (by simpa [posted, Stage.pending] using member)

/-- The shares that a run posts are values of its polynomial, if the table does not change once the
step has been reached. -/
theorem Reaches.deals (reaches : Reaches kenv cfg arrives v v') (dealing : Dealing share)
    (peers : ∀ u u', Reaches kenv cfg arrives v u → Moves kenv cfg arrives u u' →
      u'.peers = u.peers ∨ ¬u.stage.Reached k)
    (ordered : v.Ordered) (deals : v.Deals share k size) : v'.Deals share k size := by
  suffices both : v'.Ordered ∧ v'.Deals share k size from both.2
  induction reaches with
  | refl => exact ⟨ordered, deals⟩
  | tail path last ih =>
    exact ⟨last.ordered ih.1, last.deals dealing (peers _ _ path last) ih.1 ih.2⟩

theorem Moves.peers_of_drawn (moves : Moves kenv cfg arrives v v')
    (drawn : .request .mpcGPKLeader ∉ v.bodies.map StepBody.kind) : v'.peers = v.peers := by
  cases moves with
  | init i body body' random peers out isStage isBody admissible inits creates =>
    have same := StepBody.initStep_peers inits
    rw [if_neg] at same
    · exact same
    · intro isKind
      exact drawn (isKind ▸ List.mem_map_of_mem (List.mem_of_getElem? isBody))
  | handle | mail | finish | fail | complete | crash => rfl

end View
end SchnorrMpc
