import SchnorrMpc.Mpc.KeyGeneration
import SchnorrMpc.Mpc.Mail

/-!
# Messages of a key generation

In the last step every node tells the key it has computed, and finishes the step
only if each of its peers has told it the same.
-/
namespace SchnorrMpc

open Lib

variable {heard : NodeID → MpcMessage → Prop} {entries : Assoc NodeID Bytes} {msg : MpcMessage}
  {ack ack' : AckMpcGPKStep} {i : Nat} {body : StepBody}

@[simp] theorem length_gpkKinds (leader : Bool) : (gpkKinds leader).length = 5 := by
  cases leader <;> rfl

/-! ### Acknowledgements -/

/-- Keys that others have told, one each, in messages of the last step. -/
structure Told (heard : NodeID → MpcMessage → Prop) (entries : Assoc NodeID Bytes) : Prop where
  distinct : (entries.map Prod.fst).Nodup
  origin : ∀ entry ∈ entries, ∃ msg, heard entry.1 msg ∧ msg.stepID = 4 ∧
    msg.bytesData.head? = some entry.2

theorem Told.mono {heard' : NodeID → MpcMessage → Prop} (told : Told heard entries)
    (more : ∀ sender msg, heard sender msg → heard' sender msg) : Told heard' entries := by
  refine ⟨told.distinct, fun entry member => ?_⟩
  obtain ⟨msg, was, content⟩ := told.origin entry member
  exact ⟨msg, more _ _ was, content⟩

theorem Told.assign (told : Told heard entries) {sender : NodeID} {gpk : Bytes}
    (comes : heard sender msg) (isStep : msg.stepID = 4) (isKey : msg.bytesData.head? = some gpk) :
    Told heard (Assoc.assign entries sender gpk) := by
  refine ⟨Assoc.nodup_keys_assign told.distinct _ _, fun entry member => ?_⟩
  rcases List.mem_append.mp member with kept | new
  · exact told.origin entry (List.mem_filter.mp kept).1
  · obtain rfl := List.mem_singleton.mp new
    exact ⟨msg, comes, isStep, isKey⟩

namespace AckMpcGPKStep

theorem handleMessage_cases {msg : StepMessage} {accepted : Bool}
    (handled : ack.handleMessage msg = (accepted, ack')) :
    ack'.mpcGPK = ack.mpcGPK ∧ (ack'.remoteMpcGPKs = ack.remoteMpcGPKs ∨
      ∃ gpk, msg.bytesData.head? = some gpk ∧
        ack'.remoteMpcGPKs = Assoc.assign ack.remoteMpcGPKs msg.peerID gpk) := by
  unfold handleMessage at handled
  split at handled
  · cases handled
    exact ⟨rfl, .inl rfl⟩
  · cases handled
    refine ⟨rfl, ?_⟩
    cases content : msg.bytesData with
    | nil => exact .inl rfl
    | cons gpk rest => exact .inr ⟨gpk, rfl, rfl⟩

theorem check_eq_ok {peers : List PeerInfo} (checked : ack.check peers = .ok ()) :
    ack.remoteMpcGPKs.length = peers.length ∧
      ∀ entry ∈ ack.remoteMpcGPKs, entry.2 = ack.mpcGPK := by
  unfold check at checked
  split at checked
  · cases checked
  next complete =>
    split at checked
    next same =>
      refine ⟨not_not.mp complete, fun entry member => ?_⟩
      have equal := List.all_eq_true.mp same entry member
      exact (beq_iff_eq.mp equal).symm
    · cases checked

end AckMpcGPKStep

namespace View

/-- What the last step holds, before it is finished and after. -/
structure Acknowledges (arrives : NodeID → MpcMessage → Prop) (v : View) : Prop where
  told : ∀ ack, v.bodies[4]? = some (.ackGPK ack) → Told (v.Heard arrives) ack.remoteMpcGPKs
  own : ∀ mail, v.stage = .during 4 mail → ∃ ack, v.bodies[4]? = some (.ackGPK ack) ∧
    v.store.byteResult .mpcContextResult = some ack.mpcGPK
  agreed : v.stage.Past 4 → ∃ gpk entries, v.store.byteResult .mpcContextResult = some gpk ∧
    Told (v.Heard arrives) entries ∧ entries.length = v.peers.length ∧
    ∀ entry ∈ entries, entry.2 = gpk

variable {kenv : KeyEnv} {cfg : Config} {arrives : NodeID → MpcMessage → Prop} {v v' : View}
  {leader : Bool}

theorem Moves.told (moves : Moves kenv cfg arrives v v')
    (told : ∀ ack, v.bodies[4]? = some (.ackGPK ack) → Told (v.Heard arrives) ack.remoteMpcGPKs)
    (found : v'.bodies[4]? = some (.ackGPK ack')) : Told (v'.Heard arrives) ack'.remoteMpcGPKs := by
  refine Told.mono ?_ fun sender msg => moves.heard
  rcases moves.body_cases found with same | ⟨body, isBody, handled | inited | finished⟩
  · exact told ack' same
  · obtain ⟨sender, msg, accepted, heard, isStep, handled⟩ := handled
    obtain ⟨ack, rfl⟩ := StepBody.eq_ackGPK (StepBody.handleMessage_kind handled).symm
    obtain ⟨ack', taken, same⟩ := StepBody.handleMessage_ackGPK handled
    cases same
    rcases (AckMpcGPKStep.handleMessage_cases taken).2 with same | ⟨gpk, isKey, assigned⟩
    · rw [same]
      exact told ack isBody
    · rw [assigned]
      exact (told ack isBody).assign heard isStep isKey
  · obtain ⟨random, -, inits⟩ := inited
    obtain ⟨ack, rfl⟩ := StepBody.eq_ackGPK (StepBody.initStep_kind inits).symm
    obtain ⟨_, -, same⟩ := StepBody.initStep_ackGPK inits
    cases same
    exact told ack isBody
  · obtain ⟨choice, -, -, finishes⟩ := finished
    obtain ⟨ack, rfl⟩ := StepBody.eq_ackGPK (StepBody.finish_kind finishes).symm
    obtain ⟨_, finished, -⟩ := StepBody.finish_cases finishes
    obtain ⟨-, same, -⟩ := StepBody.finishStep_ackGPK finished
    rw [StepBody.ackGPK.inj same]
    exact told ack isBody

theorem index_lt (kinds : v.bodies.map StepBody.kind = gpkKinds leader)
    (found : v.bodies[i]? = some body) : i < 5 := by
  have inside := (List.getElem?_eq_some_iff.mp found).1
  have length := congrArg List.length kinds
  simp only [List.length_map, length_gpkKinds] at length
  omega

theorem eq_ackGPK (kinds : v.bodies.map StepBody.kind = gpkKinds leader)
    (found : v.bodies[4]? = some body) : ∃ ack, body = .ackGPK ack := by
  apply StepBody.eq_ackGPK
  have last := congrArg (fun kinds => kinds[4]?) kinds
  cases leader <;> simpa [found, gpkKinds] using last

section

variable (moves : Moves kenv cfg arrives v v')
  (kinds : v.bodies.map StepBody.kind = gpkKinds leader) (inv : v.Acknowledges arrives)

include moves kinds inv

/-- During the last step the node tells what it has stored. -/
theorem Moves.own {mail : List Mail} (isStage' : v'.stage = .during 4 mail) :
    ∃ ack, v'.bodies[4]? = some (.ackGPK ack) ∧
      v'.store.byteResult .mpcContextResult = some ack.mpcGPK := by
  cases moves with
  | handle i sender msg body body' accepted isBody heard isStep handled =>
    obtain ⟨ack, found, same⟩ := inv.own mail isStage'
    by_cases here : i = 4
    · subst here
      obtain rfl := Option.some.inj (found.symm.trans isBody)
      obtain ⟨ack', taken, rfl⟩ := StepBody.handleMessage_ackGPK handled
      refine ⟨ack', ?_, ?_⟩
      · simp [(List.getElem?_eq_some_iff.mp found).1]
      · rw [(AckMpcGPKStep.handleMessage_cases taken).1]
        exact same
    · exact ⟨ack, by simpa [List.getElem?_set, here] using found, same⟩
  | init i body body' random peers out isStage isBody admissible inits creates =>
    cases isStage'
    obtain ⟨ack, rfl⟩ := eq_ackGPK kinds isBody
    obtain ⟨gpk, isKey, rfl⟩ := StepBody.initStep_ackGPK inits
    refine ⟨{ ack with mpcGPK := gpk }, ?_, isKey⟩
    simp [(List.getElem?_eq_some_iff.mp isBody).1]
  | mail i item rest isStage =>
    cases isStage'
    exact inv.own _ isStage
  | finish | fail | complete | crash => cases isStage'

/-- Finishing the last step is only possible when all agree. -/
theorem Moves.agreed (past : v'.stage.Past 4) :
    ∃ gpk entries, v'.store.byteResult .mpcContextResult = some gpk ∧
      Told (v'.Heard arrives) entries ∧ entries.length = v'.peers.length ∧
      ∀ entry ∈ entries, entry.2 = gpk := by
  cases moves with
  | handle => exact inv.agreed past
  | init i body body' random peers out isStage isBody admissible inits creates =>
    exact absurd (index_lt kinds isBody) (Nat.not_lt.mpr past)
  | mail i item rest isStage =>
    obtain ⟨gpk, entries, isKey, told, complete, same⟩ := inv.agreed (by rw [isStage]; exact past)
    have moves : Moves kenv cfg arrives v _ := .mail i item rest isStage
    exact ⟨gpk, entries, isKey, told.mono fun _ _ => moves.heard, complete, same⟩
  | finish i body body' choice store srv isStage isBody iterates finishes =>
    obtain rfl : i = 4 := by
      have inside := index_lt kinds isBody
      have later : 4 < i + 1 := past
      omega
    obtain ⟨ack, found, isKey⟩ := inv.own [] isStage
    obtain rfl := Option.some.inj (found.symm.trans isBody)
    obtain ⟨between, finished, ⟨⟨_, isGpk⟩, -⟩ | ⟨-, rfl, rfl⟩⟩ := StepBody.finish_cases finishes
    · have kind := StepBody.finish_kind finishes
      rw [isGpk] at kind
      cases kind
    · obtain ⟨checked, rfl, rfl⟩ := StepBody.finishStep_ackGPK finished
      obtain ⟨complete, equal⟩ := AckMpcGPKStep.check_eq_ok checked
      exact ⟨ack.mpcGPK, ack.remoteMpcGPKs, isKey, inv.told ack found, complete, equal⟩
  | complete i isStage isEnd =>
    refine inv.agreed ?_
    rw [isStage]
    have length := congrArg List.length kinds
    have outside := List.getElem?_eq_none_iff.mp isEnd
    simp only [List.length_map, length_gpkKinds] at length
    exact Nat.lt_of_lt_of_le (by decide : 4 < 5) (length ▸ outside)
  | fail | crash => exact past.elim

theorem Moves.acknowledges :
    v'.Acknowledges arrives where
  told _ := moves.told inv.told
  own _ := moves.own kinds inv
  agreed := moves.agreed kinds inv

end

theorem Reaches.acknowledges (reaches : Reaches kenv cfg arrives v v')
    (kinds : v.bodies.map StepBody.kind = gpkKinds leader) (inv : v.Acknowledges arrives) :
    v'.Acknowledges arrives := by
  induction reaches with
  | refl => exact inv
  | tail path last ih => exact last.acknowledges ((Reaches.kinds path).trans kinds) ih

theorem Reaches.tells (reaches : Reaches kenv cfg arrives v v') (nothing : v.posted = [])
    (kinds : v.bodies.map StepBody.kind = gpkKinds leader) :
    ∀ mail ∈ v'.posted, mail.2.stepID = 4 →
      ∃ gpk, v'.store.byteResult .mpcContextResult = some gpk ∧ mail.2.bytesData = [gpk] := by
  refine Reaches.mail_content (fun store msg => ∃ gpk,
    store.byteResult .mpcContextResult = some gpk ∧ msg.bytesData = [gpk]) reaches nothing ?_ ?_
  · rintro u msg path ⟨body, body', random, peers, out, item, -, isBody, inits, creates, inOut, -,
      content⟩ isStep
    rw [isStep] at isBody
    obtain ⟨ack, rfl⟩ := eq_ackGPK ((Reaches.kinds path).trans kinds) isBody
    obtain ⟨gpk, isKey, rfl⟩ := StepBody.initStep_ackGPK inits
    cases creates
    obtain rfl := List.mem_singleton.mp inOut
    exact ⟨gpk, isKey, content⟩
  · rintro u u' msg path move later ⟨gpk, isKey, content⟩
    have silent : ∀ kind ∈ (u.bodies.map StepBody.kind).drop 4, kind.writesBytes = false := by
      rw [Reaches.kinds path, kinds]
      cases leader <;> decide
    exact ⟨gpk, by rw [move.bytes_frame later silent, isKey], content⟩

end View

/-! ### Whole runs -/

section Runs

variable {kenv : KeyEnv} {cfg : Config} {arrives : NodeID → MpcMessage → Prop}
  {srv : MpcDistributor} {leader : Bool} {ctx : MpcContext} (start : GpkStart leader ctx)
  {run : ContextRun}

include start

section

variable (reaches : ContextRun.Reaches kenv cfg arrives (.start srv ctx) run)

include reaches

theorem GpkStart.acknowledges : run.view.Acknowledges arrives := by
  refine View.Reaches.acknowledges (start.path reaches).1 start.kinds ⟨?_, ?_, ?_⟩
  · intro ack found
    rw [start.freshAck ack (List.mem_of_getElem? found)]
    exact ⟨List.nodup_nil, fun entry member => absurd member List.not_mem_nil⟩
  · intro mail isStage
    cases isStage
  · intro past
    cases past

theorem GpkStart.tells {receiver : NodeID} (sent : (receiver, msg) ∈ mails run.sent)
    (isStep : msg.stepID = 4) :
    ∃ gpk, run.ctx.mpcResult.byteResult .mpcContextResult = some gpk ∧ msg.bytesData = [gpk] :=
  View.Reaches.tells (start.path reaches).1 rfl start.kinds (receiver, msg)
    (List.mem_append_left _ sent) isStep

theorem GpkStart.finished (inside : i < 5) (past : run.pc.stage.Past i) :
    ∃ choice u v, ContextRun.Finishes kenv cfg arrives (.start srv ctx) run i choice u v := by
  have length : ctx.mpcSteps.length = 5 := by
    simpa using congrArg List.length start.kinds
  refine (ContextRun.Reaches.finished reaches start.initially ?_ ?_).2 past
  · rw [← length] at inside
    exact inside
  · exact Nat.not_lt_zero i

end

/-- The key that the step of the group key has stored is there until the end. -/
theorem GpkStart.stored_key {choice : Choice} {u v : ContextRun}
    (finishes : ContextRun.Finishes kenv cfg arrives (.start srv ctx) run 3 choice u v)
    {pointer : MpcPointGenerator} {order : Assoc Nat (Int × Int)} {gpk : Int × Int} {share : Int}
    {keyStore : KeyStore} {encoded : Bytes}
    (key : KeyFinished kenv cfg u v choice pointer order gpk share keyStore encoded) :
    run.ctx.mpcResult.result .publicKeyResult = some [gpk.1, gpk.2] ∧
      run.ctx.mpcResult.byteResult .mpcContextResult = some encoded := by
  obtain ⟨inbox, -⟩ := ContextRun.Reaches.refines finishes.toNext start.initially
  obtain ⟨-, after⟩ := ContextRun.Reaches.refines finishes.after inbox
  obtain ⟨-, kinds⟩ := start.path finishes.toNext
  have later : v.view.stage.AtLeast 4 := by
    simp [ContextRun.view, finishes.isNext, Pc.stage, Stage.AtLeast]
  have number : run.view.store.result .publicKeyResult = v.view.store.result .publicKeyResult :=
    (View.Reaches.result_frame after later (by
      rw [kinds]
      cases leader <;> decide)).2
  have bytes : run.view.store.byteResult = v.view.store.byteResult :=
    (View.Reaches.bytes_frame after later (by
      rw [kinds]
      cases leader <;> decide)).2
  simp only [ContextRun.view, key.store] at number bytes
  exact ⟨by simp [number], by simp [bytes]⟩

end Runs
end SchnorrMpc
