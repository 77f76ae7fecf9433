import SchnorrMpc.Mpc.Progress

/-!
# Mail of a run

The mail of a step is made when the step is initialized. What it says of the
store stays true as long as the steps that follow leave that part of the store
alone. What a step has taken in, it has heard.
-/
namespace SchnorrMpc

open Lib

variable {i : Nat} {mail : Mail} {sender : NodeID} {msg : MpcMessage}

/-- The mail that the stage has still to send. -/
def Stage.pending : Stage → List Mail
  | during _ mail => mail
  | before _ | failed _ | done | panicked => []

/-- Step `i` has been initialized, if the run has not come to an end. -/
def Stage.Reached (i : Nat) : Stage → Prop
  | before j => i < j
  | during j _ => i ≤ j
  | failed _ | done | panicked => True

theorem Stage.Reached.atLeast {stage : Stage} (reached : stage.Reached i) : stage.AtLeast i := by
  cases stage with
  | before => exact Nat.le_of_lt reached
  | during => exact reached
  | failed | done | panicked => trivial

theorem mem_mails_parcels {srv : MpcDistributor} {contextID : Nat} {peers : List PeerInfo}
    {out : List OutMessage}
    (member : mail ∈ mails (out.flatMap (ContextRun.parcels srv contextID i peers))) :
    mail.2.stepID = i ∧
      ∃ item ∈ out, mail.2.data = item.data ∧ mail.2.bytesData = item.bytesData := by
  simp only [mails, List.mem_filterMap, List.mem_flatMap] at member
  obtain ⟨parcel, ⟨item, inOut, isParcel⟩, isMail⟩ := member
  have content : parcel.msg.stepID = i ∧ parcel.msg.data = item.data ∧
      parcel.msg.bytesData = item.bytesData := by
    unfold ContextRun.parcels at isParcel
    split at isParcel
    · obtain rfl := List.mem_singleton.mp isParcel
      exact ⟨rfl, rfl, rfl⟩
    · obtain ⟨peer, -, rfl⟩ := List.mem_map.mp isParcel
      exact ⟨rfl, rfl, rfl⟩
  split at isMail
  · cases isMail
    exact ⟨content.1, item, inOut, content.2⟩
  · cases isMail

namespace View

/-- Everything the node has sent, and what it is about to send. -/
def posted (v : View) : List Mail := v.mailed ++ v.stage.pending

/-- Initializing the step of this message makes it. -/
def Makes (env : Env) (v : View) (msg : MpcMessage) : Prop :=
  ∃ body body' random peers out item, v.stage = .before msg.stepID ∧
    v.bodies[msg.stepID]? = some body ∧
    body.initStep env v.peers v.store random = some (.ok (body', peers)) ∧
    body'.createMessage peers = .ok out ∧ item ∈ out ∧
    msg.data = item.data ∧ msg.bytesData = item.bytesData

variable {kenv : KeyEnv} {cfg : Config} {arrives : NodeID → MpcMessage → Prop} {v v' : View}

/-! ### What a node has sent -/

theorem Moves.reached (moves : Moves kenv cfg arrives v v') (reached : v.stage.Reached i) :
    v'.stage.Reached i := by
  cases moves with
  | handle => exact reached
  | init j body body' random peers out isStage isBody admissible inits creates =>
    rw [isStage] at reached
    exact Nat.le_of_lt reached
  | mail j item rest isStage =>
    rw [isStage] at reached
    exact reached
  | finish j body body' choice store srv isStage isBody iterates finishes =>
    rw [isStage] at reached
    exact Nat.lt_succ_of_le reached
  | fail | complete | crash => trivial

theorem Moves.posted_cases (moves : Moves kenv cfg arrives v v') (member : mail ∈ v'.posted) :
    mail ∈ v.posted ∨
      v.Makes kenv.toEnv mail.2 ∧ v'.store = v.store ∧ v'.stage.Reached mail.2.stepID := by
  have sent (was : mail ∈ v.mailed) : mail ∈ v.posted := List.mem_append_left _ was
  cases moves with
  | handle => exact .inl member
  | init i body body' random peers out isStage isBody admissible inits creates =>
    rcases List.mem_append.mp member with was | new
    · exact .inl (sent was)
    · obtain ⟨isStep, item, inOut, data, bytesData⟩ := mem_mails_parcels new
      rw [← isStep] at isStage isBody
      exact .inr ⟨⟨body, body', random, peers, out, item, isStage, isBody, inits, creates, inOut,
        data, bytesData⟩, rfl, isStep.le⟩
  | mail i item rest isStage =>
    left
    simpa [posted, isStage, Stage.pending] using member
  | finish i body body' choice store srv isStage isBody iterates finishes =>
    left
    exact sent (by simpa [posted, Stage.pending] using member)
  | fail | complete | crash =>
    left
    exact sent (by simpa [posted, Stage.pending] using member)

/-- Only steps that have been initialized have mail. -/
def Ordered (v : View) : Prop := ∀ mail ∈ v.posted, v.stage.Reached mail.2.stepID

theorem Moves.ordered (moves : Moves kenv cfg arrives v v') (ordered : v.Ordered) : v'.Ordered := by
  intro mail member
  rcases moves.posted_cases member with was | ⟨-, -, reached⟩
  · exact moves.reached (ordered mail was)
  · exact reached

/-- What the messages of a step say when they are made, and what the rest of the run keeps, is said
by all of them. -/
theorem Reaches.mail_content (Content : BaseMpcResult → MpcMessage → Prop)
    (reaches : Reaches kenv cfg arrives v v') (nothing : v.posted = [])
    (makes : ∀ u msg, Reaches kenv cfg arrives v u → u.Makes kenv.toEnv msg → msg.stepID = i →
      Content u.store msg)
    (keeps : ∀ u u' msg, Reaches kenv cfg arrives v u → Moves kenv cfg arrives u u' →
      u.stage.AtLeast i → Content u.store msg → Content u'.store msg) :
    ∀ mail ∈ v'.posted, mail.2.stepID = i → Content v'.store mail.2 := by
  suffices both : v'.Ordered ∧ ∀ mail ∈ v'.posted, mail.2.stepID = i → Content v'.store mail.2 from
    both.2
  induction reaches with
  | refl => simp [Ordered, nothing]
  | @tail u u' path last ih =>
    obtain ⟨ordered, said⟩ := ih
    refine ⟨last.ordered ordered, fun mail member isStep => ?_⟩
    rcases last.posted_cases member with was | ⟨made, sameStore, -⟩
    · have reached := ordered mail was
      rw [isStep] at reached
      exact keeps u u' mail.2 path last reached.atLeast (said mail was isStep)
    · rw [sameStore]
      exact makes u mail.2 path made isStep

/-! ### What a node has heard -/

theorem Moves.self_eq (moves : Moves kenv cfg arrives v v') : v'.srv.self = v.srv.self := by
  cases moves with
  | finish i body body' choice store srv isStage isBody iterates finishes =>
    obtain ⟨_, rfl⟩ := StepBody.finish_srv finishes
    rfl
  | handle | init | mail | fail | complete | crash => rfl

theorem Moves.mailed_subset (moves : Moves kenv cfg arrives v v') : v.mailed ⊆ v'.mailed := by
  cases moves with
  | mail => exact List.subset_append_left ..
  | handle | init | finish | fail | complete | crash => exact List.Subset.refl _

theorem Moves.heard (moves : Moves kenv cfg arrives v v') (heard : v.Heard arrives sender msg) :
    v'.Heard arrives sender msg := by
  rcases heard with comes | ⟨isSelf, own⟩
  · exact .inl comes
  · refine .inr ?_
    rw [moves.self_eq]
    exact ⟨isSelf, moves.mailed_subset own⟩

theorem Reaches.heard (reaches : Reaches kenv cfg arrives v v')
    (heard : v.Heard arrives sender msg) : v'.Heard arrives sender msg := by
  induction reaches with
  | refl => exact heard
  | tail _ last ih => exact last.heard ih

theorem Reaches.self_eq (reaches : Reaches kenv cfg arrives v v') :
    v'.srv.self = v.srv.self := by
  induction reaches with
  | refl => rfl
  | tail _ last ih => exact last.self_eq.trans ih

/-- The three ways in which the body of a step comes to be another one. -/
theorem Moves.body_cases (moves : Moves kenv cfg arrives v v') {body' : StepBody}
    (found : v'.bodies[i]? = some body') :
    v.bodies[i]? = some body' ∨
      ∃ body, v.bodies[i]? = some body ∧
        ((∃ sender msg accepted, v.Heard arrives sender msg ∧ msg.stepID = i ∧
            body.handleMessage v.peers (ContextRun.stepMessage sender msg) =
              .ok (accepted, body')) ∨
          (∃ random, v.stage = .before i ∧
            body.initStep kenv.toEnv v.peers v.store random = some (.ok (body', v'.peers))) ∨
          ∃ choice, v.stage = .during i [] ∧ body.Iterates choice.orders ∧
            body.finish kenv cfg v.srv v.peers v.store choice = .ok (body', v'.store, v'.srv)) := by
  cases moves with
  | handle j sender msg body after accepted isBody heard isStep handled =>
    rcases getElem?_set_cases found with ⟨rfl, rfl⟩ | old
    · exact .inr ⟨body, isBody, .inl ⟨sender, msg, accepted, heard, isStep, handled⟩⟩
    · exact .inl old
  | init j body after random peers out isStage isBody admissible inits creates =>
    rcases getElem?_set_cases found with ⟨rfl, rfl⟩ | old
    · exact .inr ⟨body, isBody, .inr (.inl ⟨random, isStage, inits⟩)⟩
    · exact .inl old
  | finish j body after choice store srv isStage isBody iterates finishes =>
    rcases getElem?_set_cases found with ⟨rfl, rfl⟩ | old
    · exact .inr ⟨body, isBody, .inr (.inr ⟨choice, isStage, iterates, finishes⟩)⟩
    · exact .inl old
  | mail | fail | complete | crash => exact .inl found

/-! ### Peers -/

theorem Moves.peerIDs (moves : Moves kenv cfg arrives v v') :
    v'.peers.map PeerInfo.peerID = v.peers.map PeerInfo.peerID := by
  cases moves with
  | init i body body' random peers out isStage isBody admissible inits creates =>
    exact StepBody.initStep_peerIDs inits
  | handle | mail | finish | fail | complete | crash => rfl

theorem Reaches.peerIDs (reaches : Reaches kenv cfg arrives v v') :
    v'.peers.map PeerInfo.peerID = v.peers.map PeerInfo.peerID := by
  induction reaches with
  | refl => rfl
  | tail _ last ih => exact last.peerIDs.trans ih

end View
end SchnorrMpc
