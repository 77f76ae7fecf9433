import SchnorrMpc.Lib.Threads
import SchnorrMpc.Properties.Requests
import SchnorrMpc.Validator.Spec

/-!
# Followers sign what was approved

Requests of leaders and the operator's calls share one database and take turns.
The records under approved keys are the data that the operator has named, and a
request gets to its context only past such a record.
-/
namespace SchnorrMpc

open Lib

variable {srv : MpcDistributor} {msg : MpcMessage} {polls : Nat} {h h' : Calls NodeCall}
  {d r : SendData} {key value a a' : Bytes} {db : Db} {α : Type}

/-- The data an operator's call approves. -/
def NodeCall.approvals : NodeCall → List SendData
  | addValidData data => [data]
  | approveData data => data
  | requestMPC .. => []
  | getDataForApprove => []

/-- The data a leader's message asks to sign. -/
def NodeCall.requests : NodeCall → List SendData
  | requestMPC _ msg _ =>
    match msg.bytesData with
    | mpcM :: address :: mpcExt :: _ => [⟨address, mpcM, mpcExt⟩]
    | _ => []
  | _ => []

theorem mem_requests_of_bytesData {mpcM pk mpcExt : Bytes} (message : msg.bytesData[0]? = some mpcM)
    (key : msg.bytesData[1]? = some pk) (ext : msg.bytesData[2]? = some mpcExt) :
    ⟨pk, mpcM, mpcExt⟩ ∈ (NodeCall.requestMPC srv msg polls).requests := by
  unfold NodeCall.requests
  match bytes : msg.bytesData with
  | [] => simp [bytes] at message
  | [_] => simp [bytes] at key
  | [_, _] => simp [bytes] at ext
  | _ :: _ :: _ :: _ =>
    simp only [bytes, List.getElem?_cons_zero, List.getElem?_cons_succ, Option.some.injEq]
      at message key ext
    simp [bytes, message, key, ext]

def approvals (h : Calls NodeCall) : List SendData := h.started.flatMap NodeCall.approvals

def requests (h : Calls NodeCall) : List SendData := h.started.flatMap NodeCall.requests

/-- What the database may hold: approved data, requested data, and the list of requests. -/
def Recorded (venv : ValEnv) (h : Calls NodeCall) (key value : Bytes) : Prop :=
  (∃ d ∈ approvals h, key = buildKeyFromData venv.toEnv d .approved ∧ value = venv.marshalData d) ∨
    (∃ d ∈ requests h, key = buildKeyFromData venv.toEnv d .approving ∧
      value = venv.marshalData d) ∨
    key = mpcApprovingKeys

def Records (venv : ValEnv) (h : Calls NodeCall) (db : Db) : Prop :=
  ∀ key value, db key = some value → Recorded venv h key value

theorem approvals_mono (later : h ≤ h') (member : d ∈ approvals h) : d ∈ approvals h' := by
  obtain ⟨call, started, carries⟩ := List.mem_flatMap.mp member
  exact List.mem_flatMap.mpr ⟨call, later call started, carries⟩

theorem requests_mono (later : h ≤ h') (member : d ∈ requests h) : d ∈ requests h' := by
  obtain ⟨call, started, carries⟩ := List.mem_flatMap.mp member
  exact List.mem_flatMap.mpr ⟨call, later call started, carries⟩

/-- All data whose keys are built in a run. -/
def hashedData (h : Calls NodeCall) : List SendData := approvals h ++ requests h

theorem NoCollision.mono {env : Env} (later : h ≤ h')
    (noCollision : NoCollision env (hashedData h')) : NoCollision env (hashedData h) := by
  have grows (d : SendData) (member : d ∈ hashedData h) : d ∈ hashedData h' := by
    rcases List.mem_append.mp member with approved | requested
    · exact List.mem_append_left _ (approvals_mono later approved)
    · exact List.mem_append_right _ (requests_mono later requested)
  intro d member d' member'
  exact noCollision d (grows d member) d' (grows d' member')

section Writes

variable {venv : ValEnv} {h : Calls NodeCall}

theorem Recorded.mono (later : h ≤ h') (recorded : Recorded venv h key value) :
    Recorded venv h' key value := by
  rcases recorded with ⟨d, approved, facts⟩ | ⟨d, requested, facts⟩ | list
  · exact .inl ⟨d, approvals_mono later approved, facts⟩
  · exact .inr (.inl ⟨d, requests_mono later requested, facts⟩)
  · exact .inr (.inr list)

/-- The operation writes nothing but what may be recorded. -/
def WritesRecorded (venv : ValEnv) (h : Calls NodeCall) : DbOp → Prop
  | .put key value => Recorded venv h key value
  | _ => True

theorem records_step {after : Db} {op : DbOp} {answer : DbAns op} (later : h ≤ h')
    (writes : WritesRecorded venv h op) (records : Records venv h' db)
    (taken : Db.Step db op answer after) : Records venv h' after := by
  cases op with
  | getDB =>
    rw [Db.step_getDB taken]
    exact records
  | has key =>
    rw [(Db.step_has taken).1]
    exact records
  | get key =>
    rw [(Db.step_get taken).1]
    exact records
  | put key value =>
    rcases Db.step_put taken with ⟨-, rfl⟩ | ⟨rfl, -⟩
    · intro other stored found
      rw [Function.update_apply] at found
      split at found
      next same =>
        cases found
        rw [same]
        exact Recorded.mono later writes
      next => exact records other stored found
    · exact records
  | delete key =>
    rcases Db.step_delete taken with rfl | rfl
    · intro other stored found
      rw [Function.update_apply] at found
      split at found
      next => cases found
      next => exact records other stored found
    · exact records

open DbM Prog

theorem all_unwrap {P : DbOp → Prop} (answer : Except Err α) : All P (unwrap answer) := by
  cases answer <;> trivial

theorem all_addKeyValueToDB (recorded : Recorded venv h key value) :
    All (WritesRecorded venv h) (addKeyValueToDB key value) := by
  refine .bind ⟨trivial, all_unwrap⟩ fun _ => .bind ⟨recorded, fun _ => trivial⟩ fun put => ?_
  refine .bind (all_unwrap put) fun _ => .bind ⟨trivial, fun _ => trivial⟩ fun got => ?_
  exact .bind (all_unwrap got) fun _ => trivial

theorem all_addApprovingData (requested : d ∈ requests h) :
    All (WritesRecorded venv h) (addApprovingData venv d) := by
  refine .bind ⟨trivial, all_unwrap⟩ fun _ => .bind ⟨trivial, fun _ => trivial⟩ fun approved => ?_
  refine .bind (all_unwrap approved) fun isExist => ?_
  split
  · trivial
  · refine .bind ⟨trivial, fun _ => trivial⟩ fun ret => .bind ?_ fun approvingKeys => ?_
    · unfold readApprovingKeys
      cases ret with
      | ok ret =>
        simp only
        split
        · exact all_unwrap _
        · trivial
      | error error =>
        simp only
        split <;> trivial
    · refine .bind ⟨trivial, fun _ => trivial⟩ fun exist =>
        .bind (all_unwrap exist) fun existDb => ?_
      split
      · trivial
      · have listed (inKeys : Bool) : All (WritesRecorded venv h) (if (!inKeys) = true then
            addKeyValueToDB mpcApprovingKeys (venv.marshalKeys (approvingKeys ++
              [buildKeyFromData venv.toEnv d .approving])) else pure ()) := by
          split
          · exact all_addKeyValueToDB (.inr (.inr rfl))
          · trivial
        by_cases absent : (!existDb) = true
        · rw [if_pos absent]
          exact .bind (all_addKeyValueToDB (.inr (.inl ⟨d, requested, rfl, rfl⟩))) fun _ => listed _
        · rw [if_neg absent]
          exact listed _

theorem all_approveOneData (approved : d ∈ approvals h) :
    All (WritesRecorded venv h) (approveOneData venv d) := by
  refine .bind ⟨trivial, all_unwrap⟩ fun _ => .bind ⟨trivial, fun _ => trivial⟩ fun got => ?_
  refine .bind (all_unwrap got) fun ret => .bind (all_unwrap _) fun approvingKeys => ?_
  split
  · trivial
  · refine .bind ⟨trivial, fun _ => trivial⟩ fun exist => ?_
    split
    · refine .bind (all_addKeyValueToDB (.inl ⟨d, approved, rfl, rfl⟩)) fun _ => ?_
      refine .bind (all_addKeyValueToDB (.inr (.inr rfl))) fun _ => ?_
      exact .bind ⟨trivial, fun _ => trivial⟩ all_unwrap
    · trivial

theorem all_approveData {data : List SendData} (approved : ∀ d ∈ data, d ∈ approvals h) :
    All (WritesRecorded venv h) (approveData venv data) := by
  unfold approveData
  induction data with
  | nil => trivial
  | cons d rest ih =>
    refine .bind (all_approveOneData (approved d List.mem_cons_self)).attempt fun _ => ?_
    exact .bind (ih fun d' member => approved d' (List.mem_cons_of_mem _ member)) fun _ => trivial

theorem all_addOneValidData (approved : d ∈ approvals h) :
    All (WritesRecorded venv h) (addOneValidData venv d) := by
  refine .bind ⟨trivial, all_unwrap⟩ fun _ => .bind ⟨trivial, fun _ => trivial⟩ fun exist => ?_
  split
  · trivial
  · trivial
  · exact all_addKeyValueToDB (.inl ⟨d, approved, rfl, rfl⟩)

theorem all_readApprovingItems (keys : List Bytes) :
    All (WritesRecorded venv h) (readApprovingItems venv keys) := by
  induction keys with
  | nil => trivial
  | cons key rest ih =>
    refine .bind ⟨trivial, fun _ => trivial⟩ fun item => .bind ih fun items => ?_
    split
    · trivial
    · split <;> trivial

theorem all_getDataForApprove : All (WritesRecorded venv h) (getDataForApprove venv) := by
  refine .bind ⟨trivial, fun _ => trivial⟩ fun db => ?_
  split
  · trivial
  · refine .bind ⟨trivial, fun _ => trivial⟩ fun got => ?_
    split
    · trivial
    · split
      · trivial
      · exact all_readApprovingItems _

theorem all_waitKeyFromDB (key : Bytes) (polls : Nat) :
    All (WritesRecorded venv h) (waitKeyFromDB key polls) := by
  induction polls with
  | zero =>
    refine .bind ⟨trivial, fun _ => trivial⟩ fun exist => .bind (all_unwrap exist) fun isExist => ?_
    split <;> trivial
  | succ polls ih =>
    refine .bind ⟨trivial, fun _ => trivial⟩ fun exist => .bind (all_unwrap exist) fun isExist => ?_
    split
    · trivial
    · exact ih

theorem guarantees_of_writes {p : DbM α} (all : All (WritesRecorded venv h) p)
    {Post : Calls NodeCall → Go α → Prop} (post : ∀ h' result, h ≤ h' → Post h' result) :
    Guarantees Db.Step (Records venv) Post h p :=
  .of_all all (fun _ _ _ _ _ later writes records taken => records_step later writes records taken)
    post

end Writes

/-! ### What a validated request knows -/

/-- The operator has named data with this key and this message. -/
def Approved (h : Calls NodeCall) (r : SendData) : Prop :=
  ∃ d ∈ approvals h, d.pkBytes = r.pkBytes ∧ d.data = r.data

theorem Approved.mono (later : h ≤ h') (approved : Approved h r) : Approved h' r := by
  obtain ⟨d, member, facts⟩ := approved
  exact ⟨d, approvals_mono later member, facts⟩

/-- Whoever ends with the result `good` has the data approved. -/
def OnlyApproved {α : Type} (venv : ValEnv) (r : SendData) (good : Go α) (h : Calls NodeCall)
    (result : Go α) : Prop :=
  result = good → NoCollision venv.toEnv (hashedData h) → Approved h r

section Validated

open DbM Prog

variable {venv : ValEnv} (injective : ∀ d d', venv.marshalData d = venv.marshalData d' →
  d.pkBytes = d'.pkBytes ∧ d.data = d'.data)

include injective

/-- A record that is the data word for word, under its approved key, was approved: the two kinds
of keys end differently, and the key of the list is not a digest. -/
theorem approved_of_record (records : Records venv h db) (requested : r ∈ requests h)
    (noCollision : NoCollision venv.toEnv (hashedData h))
    (found : db (buildKeyFromData venv.toEnv r .approved) = some (venv.marshalData r)) :
    Approved h r := by
  rcases records _ _ found with ⟨d, approved, -, same⟩ | ⟨d, asked, sameKey, -⟩ | list
  · obtain ⟨pk, data⟩ := injective _ _ same
    exact ⟨d, approved, pk.symm, data.symm⟩
  · exact absurd sameKey.symm (approving_ne_approved noCollision (List.mem_append_right _ asked)
      (List.mem_append_right _ requested))
  · exact absurd list (buildKeyFromData_ne_list _ _ _)

theorem guarantees_validateData (requested : r ∈ requests h) (polls : Nat) :
    Guarantees Db.Step (Records venv) (OnlyApproved venv r (.ok ())) h
      (validateData venv r polls) := by
  have refused {h' : Calls NodeCall} (error : Err) : Guarantees Db.Step (Records venv)
      (OnlyApproved venv r (.ok ())) h' (.done (.err error) : DbM Unit) := by
    intro _ _ returned
    cases returned
  rw [validateData, dbInstance_bind]
  intro h₁ s db t later₁ records taken
  rw [Db.step_getDB taken]
  refine ⟨records, ?_⟩
  cases db with
  | error error => exact refused _
  | ok _ =>
    -- Only the last answer matters: waiting tells nothing that lasts.
    have waits : All (WritesRecorded venv h₁) (do
        getDB
        waitKeyFromDB (buildKeyFromData venv.toEnv r .approved) polls : DbM Unit) :=
      .bind ⟨trivial, all_unwrap⟩ fun _ => all_waitKeyFromDB _ polls
    refine .bind (guarantees_of_writes waits.attempt fun _ _ _ => trivial) ?_ ?_ ?_
    · intro h₂ waited later₂ _
      cases waited with
      | error error => exact refused _
      | ok _ =>
        simp only [get_bind]
        intro h₃ s got t later₃ records taken
        obtain ⟨same, stored, -⟩ := Db.step_get taken
        rw [same]
        refine ⟨records, ?_⟩
        cases got with
        | error error => exact refused _
        | ok value =>
          simp only
          split
          · exact refused _
          next equal =>
            intro h₄ later₄ _ noCollision
            have found := stored value rfl
            rw [not_not.mp equal] at found
            exact (approved_of_record injective records
              (requests_mono (later₁.trans (later₂.trans later₃)) requested)
              (noCollision.mono later₄) found).mono later₄
    · intro _ _ _ _ returned
      cases returned
    · intro _ _ _ returned
      cases returned

/-- Waiting for approval returns only when the data is approved. -/
theorem guarantees_awaitApproval (requested : r ∈ requests h) (srv : MpcDistributor)
    (msg : MpcMessage) (nByApprove : Int) (polls : Nat) :
    Guarantees Db.Step (Records venv) (OnlyApproved venv r (.ok ())) h
      (awaitApproval venv srv msg r nByApprove polls) := by
  -- an error is no answer, whatever the peers are
  have refused {h' : Calls NodeCall} (error : Err) : Guarantees Db.Step (Records venv)
      (OnlyApproved venv r (.ok ())) h'
      (do let _ ← .done (derefPeers srv msg); .done (.err error) : DbM Unit) := by
    cases derefPeers srv msg <;> intro _ _ returned <;> cases returned
  have tried {h' : Calls NodeCall} (later : h ≤ h') : Guarantees Db.Step (Records venv)
      (OnlyApproved venv r (.ok (.ok ()))) h' (validateData venv r polls).attempt := by
    refine (guarantees_validateData injective
      (requests_mono later requested) polls).attempt ?_ ?_ ?_
    · intro _ _ promise _
      exact promise rfl
    · intro _ _ _ returned
      cases returned
    · intro _ _ returned
      cases returned
  have validates {h' : Calls NodeCall} (later : h ≤ h') (next : Except Err Unit → DbM Unit)
      (passes : next (.ok ()) = pure ())
      (fails : ∀ error, next (.error error) = do
        let _ ← .done (derefPeers srv msg)
        .done (.err error)) :
      Guarantees Db.Step (Records venv) (OnlyApproved venv r (.ok ())) h'
        ((validateData venv r polls).attempt >>= next) := by
    -- nil comes from a validated request only
    refine .bind (tried later) ?_ ?_ ?_
    · intro h₁ result _ promise
      cases result with
      | error error =>
        rw [fails]
        exact refused error
      | ok _ =>
        rw [passes]
        intro h₂ above _ noCollision
        exact (promise rfl (noCollision.mono above)).mono above
    · intro _ _ _ _ returned
      cases returned
    · intro _ _ _ returned
      cases returned
  rw [awaitApproval]
  by_cases byApprove : nByApprove ≠ 0
  · simp only [if_pos byApprove]
    -- the request is added before it is waited for
    refine .bind (guarantees_of_writes (all_addApprovingData requested).attempt
      fun _ _ _ => trivial) ?_ ?_ ?_
    · intro h₁ result later _
      cases result with
      | error error => cases derefPeers srv msg <;> intro _ _ returned <;> cases returned
      | ok _ => exact validates later _ rfl fun _ => rfl
    · intro _ _ _ _ returned
      cases returned
    · intro _ _ _ returned
      cases returned
  · simp only [if_neg byApprove]
    exact validates le_rfl _ rfl fun _ => rfl

omit injective in
theorem guarantees_embed {p : DbM α} {Post : Calls NodeCall → Go α → Prop}
    (promise : Guarantees Db.Step (Records venv) Post h p) :
    Guarantees NodeStep (Records venv) Post h (NodeM.embed p) := by
  induction p generalizing h with
  | done result => exact promise
  | call op next ih =>
    intro h' s answer t later records taken
    cases taken with
    | db performed =>
      obtain ⟨kept, rest⟩ := promise.call later records performed
      exact ⟨kept, ih answer rest⟩

/-- The promise of a request: at the context of a signing its data is preset and approved. -/
def SignsApproved (venv : ValEnv) (msg : MpcMessage) (h : Calls NodeCall)
    (result : Go ContextCall) : Prop :=
  ∀ call, result = .ok call → call.ctxType = .mpcSignPeer → ∃ pk mpcM mpcExt loaded,
    msg.bytesData[1]? = some pk ∧ msg.bytesData[0]? = some mpcM ∧
    call.preSetValue = signPreSet pk mpcM mpcExt loaded ∧
    (NoCollision venv.toEnv (hashedData h) → Approved h ⟨pk, mpcM, mpcExt⟩)

omit injective in
theorem SignsApproved.mono {result : Go ContextCall} (later : h ≤ h')
    (signs : SignsApproved venv msg h result) : SignsApproved venv msg h' result := by
  intro call returned isSign
  obtain ⟨pk, mpcM, mpcExt, loaded, key, message, preset, approved⟩ := signs call returned isSign
  exact ⟨pk, mpcM, mpcExt, loaded, key, message, preset,
    fun noCollision => (approved (noCollision.mono later)).mono later⟩

theorem guarantees_prepareMpcCtx (started : NodeCall.requestMPC srv msg polls ∈ h.started) :
    Guarantees NodeStep (Records venv) (SignsApproved venv msg) h
      (prepareMpcCtx venv srv msg polls) := by
  have errors (h' : Calls NodeCall) (error : Err) : SignsApproved venv msg h' (.err error) := by
    intro call returned
    cases returned
  have panics (h' : Calls NodeCall) : SignsApproved venv msg h' .panic := by
    intro call returned
    cases returned
  rw [prepareMpcCtx, NodeM.contextExists_bind]
  intro h₁ s exist t later₁ records taken
  cases taken
  refine ⟨records, ?_⟩
  dsimp only
  split
  · exact fun h' _ => errors h' _
  refine .done_bind (fun nType _ => .done_bind (fun nByApprove _ => ?_) errors panics) errors panics
  split
  · -- A key generation is no signing.
    refine .done_bind (fun peers _ => ?_) errors panics
    intro _ _ call returned isSign
    cases returned
    cases isSign
  refine .done_bind (fun mpcM message => .done_bind (fun pk key => .done_bind (fun mpcExt ext =>
    .done_bind (fun add _ => ?_) errors panics) errors panics) errors panics) errors panics
  rw [Outcome.index_eq_ok_iff] at message key ext
  have requested : ⟨pk, mpcM, mpcExt⟩ ∈ requests h₁ := by
    refine List.mem_flatMap.mpr ⟨_, later₁ _ started, ?_⟩
    exact mem_requests_of_bytesData message key ext
  rw [NodeM.loadStoremanAddress_bind]
  intro h₂ s answer t later₂ records taken
  cases taken
  refine ⟨records, .done_bind (fun loaded _ => ?_) errors panics⟩
  have waits := guarantees_awaitApproval injective (requests_mono later₂ requested) srv msg
    (int64 nByApprove) polls
  refine .bind (guarantees_embed waits) ?_ (fun h' error _ _ => errors h' error)
    (fun h' _ _ => panics h')
  intro h₃ _ later₃ approved
  refine .done_bind (fun peers _ => ?_) errors panics
  intro h₄ later₄ call returned _
  cases returned
  refine ⟨pk, mpcM, mpcExt, loaded, key, message, rfl, fun noCollision => ?_⟩
  exact (approved rfl (noCollision.mono later₄)).mono later₄

end Validated

/-- What each call promises for its end. -/
def NodeCall.Promise (venv : ValEnv) : NodeCall → Calls NodeCall → Go NodeReply → Prop
  | requestMPC _ msg _, h, result =>
    ∀ call, result = .ok (.context call) → SignsApproved venv msg h (.ok call)
  | _, _, _ => True

theorem guarantees_program {venv : ValEnv}
      (injective : ∀ d d', venv.marshalData d = venv.marshalData d' →
      d.pkBytes = d'.pkBytes ∧ d.data = d'.data) (h : Calls NodeCall) (call : NodeCall)
    (started : call ∈ h.started) :
    Prog.Guarantees NodeStep (Records venv) (call.Promise venv) h (call.program venv) := by
  cases call with
  | requestMPC srv msg polls =>
    refine .bind (guarantees_prepareMpcCtx injective started) ?_ ?_ ?_
    · intro h₁ call later signs h₂ above call' returned
      cases returned
      exact signs.mono above
    · intro _ _ _ _ _ returned
      cases returned
    · intro _ _ _ _ returned
      cases returned
  | addValidData data =>
    have approved : data ∈ approvals h :=
      List.mem_flatMap.mpr ⟨_, started, List.mem_singleton_self _⟩
    refine .bind (guarantees_embed (guarantees_of_writes (all_addOneValidData approved)
      fun _ _ _ => trivial)) ?_ (fun _ _ _ _ => trivial) (fun _ _ _ => trivial)
    exact fun _ _ _ _ _ _ => trivial
  | approveData data =>
    have approved (d : SendData) (member : d ∈ data) : d ∈ approvals h :=
      List.mem_flatMap.mpr ⟨_, started, member⟩
    refine .bind (guarantees_embed (guarantees_of_writes (all_approveData approved)
      fun _ _ _ => trivial)) ?_ (fun _ _ _ _ => trivial) (fun _ _ _ => trivial)
    exact fun _ _ _ _ _ _ => trivial
  | getDataForApprove =>
    refine .bind (guarantees_embed (guarantees_of_writes all_getDataForApprove
      fun _ _ _ => trivial)) ?_ (fun _ _ _ _ => trivial) (fun _ _ _ => trivial)
    exact fun _ _ _ _ _ _ => trivial

/-- Whatever the requests and the operator's calls do between each other's operations, a request
that comes to the context of a signing has data that the operator has named before, and the
context signs that data. -/
theorem follower_signs_approved (venv : ValEnv)
    (injective : ∀ d d', venv.marshalData d = venv.marshalData d' →
      d.pkBytes = d'.pkBytes ∧ d.data = d'.data)
    (t : Threads NodeAns Err NodeReply Db NodeCall)
    (reachable : Threads.Reachable NodeStep (NodeCall.program venv) Db.empty t)
    (noCollision : NoCollision venv.toEnv (hashedData t.calls))
    (srv : MpcDistributor) (msg : MpcMessage) (polls : Nat) (call : ContextCall)
    (reached : (.requestMPC srv msg polls, .done (.ok (.context call))) ∈ t.threads)
    (isSign : call.ctxType = .mpcSignPeer) :
    ∃ pk mpcM, msg.bytesData[1]? = some pk ∧ msg.bytesData[0]? = some mpcM ∧
      (∃ d ∈ approvals t.calls, d.pkBytes = pk ∧ d.data = mpcM) ∧
      (∃ mpcExt loaded, call.preSetValue = signPreSet pk mpcM mpcExt loaded) ∧
      ∀ cfg ctx, createContext cfg call.ctxType call.mpcID call.peers call.preSetValue = .ok ctx →
        ctx.mpcResult.getByteValue .mpcM = .ok mpcM ∧
        ctx.mpcResult.getByteValue .mpcAddress = .ok pk := by
  have grows (h h' : Calls NodeCall) (db : Db) (later : h ≤ h') (records : Records venv h db) :
      Records venv h' db := fun key value found => (records key value found).mono later
  have empty : Records venv ⟨[]⟩ Db.empty := fun key value found => by cases found
  have promise := reachable.post grows (guarantees_program injective) empty reached call rfl
  obtain ⟨pk, mpcM, mpcExt, loaded, key, message, preset, approved⟩ := promise call rfl isSign
  refine ⟨pk, mpcM, key, message, approved noCollision, ⟨mpcExt, loaded, preset⟩, ?_⟩
  intro cfg ctx created
  obtain ⟨steps, rfl⟩ := createContext_eq created
  rw [preset]
  constructor
  · rfl
  · rfl

/-! ### A run with one approval -/

private theorem append_quote_inj {rest rest' : Bytes} (plain : (34 : UInt8) ∉ a)
    (plain' : (34 : UInt8) ∉ a') (same : a ++ 34 :: rest = a' ++ 34 :: rest') :
    a = a' ∧ rest = rest' := by
  have upTo {b : Bytes} (noQuote : (34 : UInt8) ∉ b) (tail : Bytes) :
      (b ++ 34 :: tail).takeWhile (fun char => char ≠ 34) = b := by
    rw [List.takeWhile_append_of_pos]
    · simp
    · intro char member
      rw [decide_eq_true_iff]
      rintro rfl
      exact noQuote member
  have first : a = a' := by rw [← upTo plain rest, same, upTo plain']
  subst first
  exact ⟨rfl, by simpa using same⟩

private theorem quote_not_mem_hexEncode (bytes : Bytes) : (34 : UInt8) ∉ hexEncode bytes := by
  intro member
  obtain ⟨n, digit, same⟩ := mem_hexEncode member
  have value := hexValue_hexDigit n digit
  rw [← same, show hexValue 34 = none by decide] at value
  cases value

private theorem hexEncode_injective (same : hexEncode a = hexEncode a') : a = a' := by
  have decoded := hexDecode_hexEncode a
  rw [same, hexDecode_hexEncode] at decoded
  cases decoded
  rfl

theorem jsonData_injective (d d' : SendData) (same : jsonData d = jsonData d') :
    d.pkBytes = d'.pkBytes ∧ d.data = d'.data := by
  have toData : utf8 "\",\"data\":\"0x" = 34 :: utf8 ",\"data\":\"0x" := by decide
  have toExtern : utf8 "\",\"Extern\":\"" = 34 :: utf8 ",\"Extern\":\"" := by decide
  simp only [jsonData, toData, toExtern, List.append_assoc, List.append_cancel_left_eq,
    List.cons_append] at same
  obtain ⟨pk, rest⟩ := append_quote_inj (quote_not_mem_hexEncode _) (quote_not_mem_hexEncode _) same
  rw [List.append_cancel_left_eq] at rest
  obtain ⟨data, -⟩ := append_quote_inj (quote_not_mem_hexEncode _) (quote_not_mem_hexEncode _) rest
  exact ⟨hexEncode_injective pk, hexEncode_injective data⟩

private theorem exec_embed_of {p : DbM α} {s t : Db} {result : Go α}
    (exec : Prog.Exec Db.Step p s (some result) t) :
    Prog.Exec NodeStep (NodeM.embed p) s (some result) t := by
  induction p generalizing s with
  | done outcome =>
    cases exec
    exact .done _ _
  | call op next ih =>
    obtain ⟨answer, u, taken, rest⟩ := Prog.exec_call_iff.mp exec
    exact .call (.db taken) (ih answer rest)

/-- The database after the operator has added the data. -/
private def sampleDb : Db :=
  Function.update Db.empty (buildKeyFromData sampleEnv.toEnv ⟨baseBytes, [1], []⟩ .approved)
    (some (jsonData ⟨baseBytes, [1], []⟩))

private theorem sampleDb_reads (op : DbOp) (same : (Db.handle op sampleDb).2 = sampleDb) :
    NodeStep sampleDb (.db op) (Db.handle op sampleDb).1 sampleDb := by
  have taken := Db.Step.takes sampleDb op
  rw [same] at taken
  exact .db taken

/-- The operator adds data, and a follower is asked to sign it. -/
theorem follower_signs_approved_afterAdd :
    ∃ t call, Threads.Reachable NodeStep (NodeCall.program sampleEnv.toValEnv) Db.empty t ∧
      (NodeCall.requestMPC keyedServer (signRequest [0, 0, 0, 5, 1, 0, 0, 6]) 0,
        .done (.ok (.context call))) ∈ t.threads ∧
      call.ctxType = .mpcSignPeer ∧
      ∃ d ∈ approvals t.calls, d.pkBytes = baseBytes ∧ d.data = [1] := by
  let add := NodeCall.addValidData ⟨baseBytes, [1], []⟩
  let request := NodeCall.requestMPC keyedServer (signRequest [0, 0, 0, 5, 1, 0, 0, 6]) 0
  let call : ContextCall :=
    ⟨.mpcSignPeer, 7, [⟨1, 5⟩, ⟨2, 6⟩], signPreSet baseBytes [1] [] sampleLoaded⟩
  have adds : Prog.Exec NodeStep (add.program sampleEnv.toValEnv) Db.empty (some (.ok .added))
      sampleDb := by
    have run :=
      Prog.exec_run Db.Step.takes (addOneValidData sampleEnv.toValEnv ⟨baseBytes, [1], []⟩) Db.empty
    rw [run_addOneValidData, if_neg (by simp [Db.empty])] at run
    exact .bind (exec_embed_of run) (.done _ _)
  have asks : Prog.Exec NodeStep (request.program sampleEnv.toValEnv) sampleDb
      (some (.ok (.context call))) sampleDb := by
    have got : (Db.handle (.get (buildKeyFromData sampleEnv.toEnv ⟨baseBytes, [1], []⟩ .approved))
        sampleDb).1 = .ok (jsonData ⟨baseBytes, [1], []⟩) := by
      simp [Db.handle, sampleDb]
    have had : (Db.handle (.has (buildKeyFromData sampleEnv.toEnv ⟨baseBytes, [1], []⟩ .approved))
        sampleDb).1 = .ok true := by
      simp [Db.handle, sampleDb]
    have prepared := signRequest_prepared (.contextExists sampleDb 7 false)
      (.loadStoremanAddress sampleDb _ (.ok sampleLoaded)) (sampleDb_reads .getDB rfl)
      (had ▸ sampleDb_reads (.has _) rfl) (got ▸ sampleDb_reads (.get _) rfl)
      (show keyedServer.getMessagePeers [0, 0, 0, 5, 1, 0, 0, 6] = some [⟨1, 5⟩, ⟨2, 6⟩] by
        decide +kernel)
    exact .bind prepared (.done _ _)
  let t : Threads NodeAns Err NodeReply Db NodeCall := ⟨sampleDb, ⟨[add, request]⟩,
    [(add, .done (.ok .added)), (request, .done (.ok (.context call)))]⟩
  have reachable : Threads.Reachable NodeStep (NodeCall.program sampleEnv.toValEnv) Db.empty t := by
    have added := Threads.perform_exec (NodeCall.program sampleEnv.toValEnv) ⟨[add]⟩ [] [] add adds
    have asked := Threads.perform_exec (NodeCall.program sampleEnv.toValEnv) ⟨[add, request]⟩
      [(add, .done (.ok .added))] [] request asks
    exact .head (.start _ add) (.trans added (.head (.start _ request) asked))
  have noCollision : NoCollision sampleEnv.toEnv (hashedData t.calls) := by
    -- The two calls carry the same data, whose two keys differ.
    have same : hashedData t.calls = [⟨baseBytes, [1], []⟩, ⟨baseBytes, [1], []⟩] := rfl
    intro d member d' member' status status' collides
    rw [same] at member member'
    obtain rfl : d = ⟨baseBytes, [1], []⟩ := by simpa using member
    obtain rfl : d' = ⟨baseBytes, [1], []⟩ := by simpa using member'
    cases status <;> cases status'
    · rfl
    · exact absurd collides (by decide +kernel)
    · exact absurd collides (by decide +kernel)
    · rfl
  have signed :=
    follower_signs_approved sampleEnv.toValEnv jsonData_injective t reachable noCollision
      keyedServer (signRequest [0, 0, 0, 5, 1, 0, 0, 6]) 0 call (by simp [t, request]) rfl
  obtain ⟨pk, mpcM, key, message, approved, -⟩ := signed
  cases key
  cases message
  exact ⟨t, call, reachable, by simp [t, request], rfl, approved⟩

end SchnorrMpc
