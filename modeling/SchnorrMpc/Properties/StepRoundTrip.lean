import SchnorrMpc.Step.Steps

/-!
# Messages of steps with several generators

A step flattens the values of its generators into one list, and the step of a
peer takes the list apart again. Points are written and read as two integers
each. Signature shares are written as one integer each and read at twice their
index, which comes to the same for a single generator only.
-/
namespace SchnorrMpc

open Lib

variable {i seed stepId : Nat} {msg : StepMessage} {id : NodeID}

/-- A created message as it arrives at the step of a peer. -/
def OutMessage.arriving (out : OutMessage) (sender : NodeID) (stepId : Nat) : StepMessage :=
  ⟨sender, out.data, out.bytesData, stepId⟩

/-! ### One value for each generator -/

section

variable {γ ν : Type} {exist : γ → Bool} {accept : Nat → γ → Go γ}

theorem offer_of_accepts {file : γ → ν → γ} {generators : List γ} {values : List ν}
    (unheard : ∀ generator ∈ generators, exist generator = false)
    (length : values.length = generators.length)
    (accepts : ∀ (j : Nat) (generator : γ) (value : ν), values[j]? = some value →
      accept (i + j) generator = .ok (file generator value)) :
    offer exist accept i generators = .ok (true, List.zipWith file generators values) := by
  induction generators generalizing i values with
  | nil => rfl
  | cons generator rest ih =>
    cases values with
    | nil => cases length
    | cons value values =>
      obtain ⟨first, others⟩ := List.forall_mem_cons.mp unheard
      have here : accept i generator = .ok (file generator value) := accepts 0 generator value rfl
      have later : offer exist accept (i + 1) rest = .ok (true, List.zipWith file rest values) := by
        refine ih others (Nat.succ.inj length) fun j generator value found => ?_
        rw [Nat.add_assoc, Nat.add_comm 1 j]
        exact accepts (j + 1) generator value found
      rw [offer, if_neg (by simp [first]), here, Outcome.ok_bind, later]
      rfl

theorem accept_of_offer {generators results : List γ}
    (taken : offer exist accept i generators = .ok (true, results)) {j : Nat} {generator : γ}
    (found : generators[j]? = some generator) :
    ∃ result, accept (i + j) generator = .ok result := by
  induction generators generalizing i j results with
  | nil => cases found
  | cons first rest ih =>
    unfold offer at taken
    split at taken
    · cases taken
    · simp only [Outcome.bind_eq_ok_iff] at taken
      obtain ⟨result, accepted, ⟨last, others⟩, later, built⟩ := taken
      cases built
      cases j with
      | zero =>
        cases found
        exact ⟨result, accepted⟩
      | succ j =>
        rw [Nat.add_comm j 1, ← Nat.add_assoc]
        exact ih later found

theorem map_lookup_zipWith (message : γ → Assoc Nat ν) {file : γ → ν → γ}
    (files : ∀ generator value, message (file generator value) =
      Assoc.assign (message generator) seed value)
    {generators : List γ} {values : List ν} (length : values.length = generators.length) :
    (List.zipWith file generators values).map (fun generator => (message generator).lookup seed) =
      values.map some := by
  induction generators generalizing values with
  | nil =>
    rw [List.length_eq_zero_iff.mp length]
    rfl
  | cons generator rest ih =>
    cases values with
    | nil => cases length
    | cons value values =>
      rw [List.zipWith_cons_cons, List.map_cons, List.map_cons, ih (Nat.succ.inj length), files,
        Assoc.lookup_assign, if_pos rfl]

end

/-! ### Points -/

namespace MpcPointStep

/-- The step of a peer takes the message, and each of its generators has the value of the
sender's. -/
def ReadBack (peers : List PeerInfo) (id : NodeID) (stepId : Nat)
    (sender receiver : MpcPointStep) : Prop :=
  ∃ out after, sender.createMessage = [out] ∧
    receiver.handleMessage peers (out.arriving id stepId) = .ok (true, after) ∧
    after.messages.map (fun pointer => pointer.message.lookup (getPeerSeed peers id)) =
      sender.messages.map fun pointer => some pointer.seed

private theorem getElem?_flatten (points : List (Int × Int)) (j : Nat) :
    (points.flatMap fun point => [point.1, point.2])[2 * j]? = points[j]?.map Prod.fst ∧
      (points.flatMap fun point => [point.1, point.2])[2 * j + 1]? = points[j]?.map Prod.snd := by
  induction points generalizing j with
  | nil => simp
  | cons point points ih =>
    cases j with
    | zero => simp
    | succ j =>
      have step : 2 * (j + 1) = 2 * j + 1 + 1 := by omega
      simpa [step] using ih j

def filed (seed : Nat) (pointer : MpcPointGenerator) (point : Int × Int) : MpcPointGenerator :=
  { pointer with message := Assoc.assign pointer.message seed point }

/-- A list of points, one for each generator, is taken from every peer that has a seed. -/
theorem handleMessage_points {ptStep : MpcPointStep} {peers : List PeerInfo}
    {points : List (Int × Int)} (isSeed : getPeerSeed peers msg.peerID = seed)
    (data : msg.data = points.flatMap fun point => [point.1, point.2]) (several : points ≠ [])
    (length : points.length = ptStep.messages.length)
    (unheard : ∀ pointer ∈ ptStep.messages, pointer.message.lookup seed = none) :
    ptStep.handleMessage peers msg = if seed = 0 then .ok (false, ptStep)
      else .ok (true, ⟨List.zipWith (filed seed) ptStep.messages points, ptStep.resultKeys⟩) := by
  subst isSeed
  have written (j : Nat) (point : Int × Int) (found : points[j]? = some point) :
      msg.data[2 * j]? = some point.1 ∧ msg.data[2 * j + 1]? = some point.2 := by
    simp [data, getElem?_flatten, found]
  -- the log line finds the first point
  obtain ⟨first, others, isFirst⟩ := List.exists_cons_of_ne_nil several
  have logged := written 0 first (by rw [isFirst]; rfl)
  have size : msg.data.length = 2 * ptStep.signNum := by
    simp [data, signNum, ← length, List.length_flatMap, Nat.mul_comm]
  rw [handleMessage, Outcome.index_of_getElem? logged.1, Outcome.ok_bind,
    Outcome.index_of_getElem? logged.2, Outcome.ok_bind, if_neg (not_not.mpr size)]
  refine if_congr Iff.rfl rfl ?_
  rw [offer_of_accepts (by simpa using unheard) length]
  · rfl
  · intro j pointer point found
    obtain ⟨x, y⟩ := written j point found
    rw [Nat.zero_add, Outcome.index_of_getElem? x, Outcome.ok_bind, Outcome.index_of_getElem? y]
    rfl

theorem readBack_iff {sender receiver : MpcPointStep} {peers : List PeerInfo}
    (several : 1 ≤ sender.signNum) (same : receiver.signNum = sender.signNum)
    (unheard : ∀ pointer ∈ receiver.messages, pointer.message.lookup (getPeerSeed peers id) =
      none) :
    ReadBack peers id stepId sender receiver ↔ getPeerSeed peers id ≠ 0 := by
  let points := sender.messages.map fun pointer => pointer.seed
  have length : points.length = receiver.messages.length := by
    rw [List.length_map]
    exact same.symm
  let out : OutMessage :=
    ⟨.mpcMessage, none, none, points.flatMap fun point => [point.1, point.2], []⟩
  have created : sender.createMessage = [out] := by
    rw [createMessage]
    simp only [out, points, List.flatMap_map]
  have some : points ≠ [] := by
    apply List.ne_nil_of_length_pos
    rw [length]
    exact several.trans_eq same.symm
  have handled : receiver.handleMessage peers (out.arriving id stepId) =
      if getPeerSeed peers id = 0 then .ok (false, receiver) else .ok (true,
        ⟨List.zipWith (filed (getPeerSeed peers id)) receiver.messages points,
          receiver.resultKeys⟩) :=
    handleMessage_points rfl rfl some length unheard
  constructor
  · rintro ⟨sent, after, isSent, taken, -⟩ unknown
    cases created.symm.trans isSent
    rw [handled, if_pos unknown] at taken
    cases taken
  · intro known
    refine ⟨_, _, created, handled.trans (if_neg known), ?_⟩
    rw [map_lookup_zipWith MpcPointGenerator.message (fun _ _ => rfl) length,
      List.map_map]
    rfl

end MpcPointStep

/-! ### Signature shares -/

namespace MpcSStep

/-- The step of a peer takes the message, and each of its generators has the value of the
sender's. -/
def ReadBack (peers : List PeerInfo) (id : NodeID) (stepId : Nat)
    (sender receiver : MpcSStep) : Prop :=
  ∃ out after, sender.createMessage = [out] ∧
    receiver.handleMessage peers (out.arriving id stepId) = .ok (true, after) ∧
    after.messages.map (fun pointer => pointer.message.lookup (getPeerSeed peers id)) =
      sender.messages.map fun pointer => some pointer.seed

theorem handleMessage_single {msStep after : MpcSStep} {peers : List PeerInfo}
    (several : 1 ≤ msStep.signNum) (taken : msStep.handleMessage peers msg = .ok (true, after)) :
    getPeerSeed peers msg.peerID ≠ 0 ∧ msStep.signNum = 1 := by
  unfold handleMessage at taken
  simp only at taken
  split at taken
  · cases taken
  next known =>
    split at taken
    · cases taken
    next size =>
      simp only [Outcome.bind_eq_ok_iff] at taken
      obtain ⟨⟨accepted, messages⟩, offered, built⟩ := taken
      cases built
      have last : msStep.signNum - 1 < msStep.messages.length := by
        rw [← signNum]
        omega
      obtain ⟨result, accepts⟩ := accept_of_offer offered (List.getElem?_eq_getElem last)
      simp only [Outcome.bind_eq_ok_iff, Outcome.index_eq_ok_iff] at accepts
      obtain ⟨value, found, -⟩ := accepts
      have inside := (List.getElem?_eq_some_iff.mp found).1
      exact ⟨known, by omega⟩

theorem readBack_iff {sender receiver : MpcSStep} {peers : List PeerInfo}
    (several : 1 ≤ sender.signNum) (same : receiver.signNum = sender.signNum)
    (unheard : ∀ pointer ∈ receiver.messages, pointer.message.lookup (getPeerSeed peers id) =
      none) :
    ReadBack peers id stepId sender receiver ↔
      getPeerSeed peers id ≠ 0 ∧ sender.signNum = 1 := by
  constructor
  · rintro ⟨out, after, created, taken, -⟩
    obtain ⟨known, single⟩ := handleMessage_single (several.trans_eq same.symm) taken
    exact ⟨known, same.symm.trans single⟩
  · rintro ⟨known, single⟩
    obtain ⟨pointer, isPointer⟩ := List.length_eq_one_iff.mp single
    obtain ⟨own, isOwn⟩ := List.length_eq_one_iff.mp (same.trans single)
    have fresh := unheard own (by simp [isOwn])
    let heard := Assoc.assign own.message (getPeerSeed peers id) pointer.seed
    refine ⟨_, { receiver with messages := [{ own with message := heard }] }, rfl, ?_, ?_⟩
    · simp [handleMessage, OutMessage.arriving, isPointer, isOwn, known, signNum, offer, fresh,
        heard]
    · simp [isPointer, Assoc.lookup_assign, heard]

end MpcSStep

/-- A step reads the message of the step it is for exactly if the sender has a seed and, with
signature shares, there is one generator. -/
theorem step_messages_read_back_iff (k : Nat) (several : 1 ≤ k) (peers : List PeerInfo)
    (id : NodeID) (stepId : Nat) :
    (∀ sender receiver : MpcPointStep, sender.signNum = k → receiver.signNum = k →
      (∀ pointer ∈ receiver.messages, pointer.message.lookup (getPeerSeed peers id) = none) →
      (MpcPointStep.ReadBack peers id stepId sender receiver ↔ getPeerSeed peers id ≠ 0)) ∧
    ∀ sender receiver : MpcSStep, sender.signNum = k → receiver.signNum = k →
      (∀ pointer ∈ receiver.messages, pointer.message.lookup (getPeerSeed peers id) = none) →
      (MpcSStep.ReadBack peers id stepId sender receiver ↔
        getPeerSeed peers id ≠ 0 ∧ k = 1) := by
  constructor
  · rintro sender receiver rfl same unheard
    exact MpcPointStep.readBack_iff several same unheard
  · rintro sender receiver rfl same unheard
    exact MpcSStep.readBack_iff several same unheard

namespace TwoSharesSample

def peers : List PeerInfo := [⟨1, 5⟩, ⟨2, 6⟩]

def points : MpcPointStep :=
  ⟨[⟨(3, 4), [], (0, 0), .mpcPublicShare⟩, ⟨(5, 12), [], (0, 0), .rMpcPublicShare⟩],
    [.publicKeyResult, .rPublicKeyResult]⟩

/-- The step of the peer has heard from node 2. -/
def pointReceiver : MpcPointStep :=
  ⟨[⟨(8, 15), [(6, (1, 2))], (0, 0), .mpcPublicShare⟩,
      ⟨(7, 24), [(6, (2, 3))], (0, 0), .rMpcPublicShare⟩],
    [.publicKeyResult, .rPublicKeyResult]⟩

def receiver : MpcSStep := .create [.mpcPrivateShare, .rMpcPrivateShare] [.mpcS, .mpcExt]

def sender : MpcSStep :=
  ⟨[⟨7, [], 0, .mpcPrivateShare⟩, ⟨8, [], 0, .rMpcPrivateShare⟩], [.mpcS, .mpcExt]⟩

end TwoSharesSample

open TwoSharesSample in
/-- Two points are read back, one share is, two shares are not. -/
theorem step_messages_read_back_iff_two :
    MpcPointStep.ReadBack peers 1 3 points pointReceiver ∧
      MpcSStep.ReadBack peers 1 5 ⟨[⟨7, [], 0, .mpcPrivateShare⟩], [.mpcS]⟩
        ⟨[⟨9, [(6, 11)], 0, .mpcPrivateShare⟩], [.mpcS]⟩ ∧
      ¬MpcSStep.ReadBack peers 1 5 sender receiver :=
  ⟨((step_messages_read_back_iff 2 (by decide) peers 1 3).1 points pointReceiver rfl rfl
      (by decide +kernel)).mpr (by decide +kernel),
    ((step_messages_read_back_iff 1 le_rfl peers 1 5).2 _ _ rfl rfl
      (by decide +kernel)).mpr (by decide +kernel),
    fun reads => absurd (((step_messages_read_back_iff 2 (by decide) peers 1 5).2 sender receiver
      rfl rfl (by decide +kernel)).mp reads).2 (by decide)⟩

open TwoSharesSample in
/-- With two generators the second one reads the third of two integers. -/
theorem two_shares_crash : sender.createMessage = [⟨.mpcMessage, none, none, [7, 8], []⟩] ∧
    receiver.handleMessage peers ⟨1, [7, 8], [], 5⟩ = .panic := by
  decide +kernel

end SchnorrMpc
