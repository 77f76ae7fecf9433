import SchnorrMpc.Lib.Base64
import SchnorrMpc.Properties.Requests
import SchnorrMpc.Validator.Queue

/-!
# The queue of requests

Every call updates the list of keys and the records under them one write after
the other. Wherever a call is cut off the list names only records that are
there; when none is, the database is the abstract queue.
-/
namespace SchnorrMpc

open Lib DbM Prog

variable {key : Bytes} {d : SendData} {venv : ValEnv} {db : Db}

/-! ### At every point of every call -/

/-- The value is the record of a request under this key. -/
def IsRecord (venv : ValEnv) (asked : List SendData) (key value : Bytes) : Prop :=
  ∃ d ∈ asked, key = buildKeyFromData venv.toEnv d .approving ∧ value = venv.marshalData d

/-- The list has no key twice, and each of its keys has a record. What is under the keys of
requests are their records. -/
structure Listed (venv : ValEnv) (data asked : List SendData) (db : Db) (keys : List Bytes) :
    Prop where
  list : HoldsList venv db keys
  distinct : keys.Nodup
  records : ∀ key ∈ keys, ∃ value, db key = some value ∧ IsRecord venv asked key value
  contents : ∀ d ∈ data, ∀ value, db (buildKeyFromData venv.toEnv d .approving) = some value →
    IsRecord venv asked (buildKeyFromData venv.toEnv d .approving) value

/-- The list names only records that are there. -/
def QueueSound (venv : ValEnv) (data asked : List SendData) (db : Db) : Prop :=
  ∃ keys, Listed venv data asked db keys

section Sound

variable {venv : ValEnv} {data asked : List SendData} {db : Db} {keys : List Bytes}

theorem Listed.update_other (listed : Listed venv data asked db keys) {value : Option Bytes}
    (noList : key ≠ mpcApprovingKeys) (unlisted : key ∉ keys)
    (content : ∀ d ∈ data, buildKeyFromData venv.toEnv d .approving = key → ∀ stored,
      value = some stored → IsRecord venv asked key stored) :
    Listed venv data asked (Function.update db key value) keys := by
  refine ⟨?_, listed.distinct, fun other member => ?_, fun d member stored found => ?_⟩
  · rw [HoldsList, Function.update_of_ne noList.symm]
    exact listed.list
  · rw [Function.update_of_ne (ne_of_mem_of_not_mem member unlisted)]
    exact listed.records other member
  · by_cases same : buildKeyFromData venv.toEnv d .approving = key
    · rw [same, Function.update_self] at found
      rw [same]
      exact content d member same stored found
    · rw [Function.update_of_ne same] at found
      exact listed.contents d member stored found

theorem Listed.update_list (listed : Listed venv data asked db keys) {keys' : List Bytes}
    (distinct : keys'.Nodup)
    (records : ∀ key ∈ keys', ∃ value, db key = some value ∧ IsRecord venv asked key value) :
    Listed venv data asked
      (Function.update db mpcApprovingKeys (some (venv.marshalKeys keys'))) keys' := by
  refine ⟨.inr (Function.update_self ..), distinct, fun key member => ?_, fun d member stored => ?_⟩
  · obtain ⟨value, stored, d, request, same, content⟩ := records key member
    refine ⟨value, ?_, d, request, same, content⟩
    rw [Function.update_of_ne (same ▸ buildKeyFromData_ne_list _ _ _)]
    exact stored
  · rw [Function.update_of_ne (buildKeyFromData_ne_list _ _ _)]
    exact listed.contents d member stored

variable (laws : QueueLaws venv data) (known : ∀ d ∈ asked, d ∈ data)

include laws known

section

variable (listed : Listed venv data asked db keys)

include listed

theorem Listed.reads : ReadsList venv keys := by
  refine laws.readsList keys listed.distinct fun key member => ?_
  obtain ⟨_, -, d, request, same, -⟩ := listed.records key member
  exact ⟨d, known d request, same⟩

theorem Listed.update_approved (member : d ∈ data) (value : Option Bytes) :
    Listed venv data asked
      (Function.update db (buildKeyFromData venv.toEnv d .approved) value) keys := by
  refine listed.update_other (buildKeyFromData_ne_list _ _ _) (fun inKeys => ?_) ?_
  · obtain ⟨_, -, d', request, same, -⟩ := listed.records _ inKeys
    exact approving_ne_approved laws.noCollision (known d' request) member same.symm
  · intro d' member' same
    exact absurd same (approving_ne_approved laws.noCollision member' member)

/-- Whatever is read as the list is the list, unless reading it fails. -/
theorem Listed.readApprovingKeys {answer : Except Err Bytes}
    (found : ∀ value, answer = .ok value → db mpcApprovingKeys = some value)
    (missing : answer = .error errNotFound → db mpcApprovingKeys = none) :
    Meets Db.Step (QueueSound venv data asked) (fun value t => value = keys ∧ t = db)
      (readApprovingKeys venv answer) db := by
  have sound : QueueSound venv data asked db := ⟨keys, listed⟩
  have reads := listed.reads laws known
  unfold SchnorrMpc.readApprovingKeys
  cases answer with
  | ok ret =>
    have stored := found ret rfl
    rcases listed.list with ⟨absent, -⟩ | present
    · rw [absent] at stored
      cases stored
    · obtain rfl : venv.marshalKeys keys = ret := Option.some.inj (present.symm.trans stored)
      simp only [if_pos reads.nonempty, reads.unmarshal]
      exact meets_ok sound ⟨rfl, rfl⟩
  | error error =>
    simp only
    split
    · exact meets_err sound
    next isMissing =>
      have absent := missing (congrArg Except.error (not_not.mp isMissing))
      rcases listed.list with ⟨-, rfl⟩ | present
      · exact meets_ok sound ⟨rfl, rfl⟩
      · rw [absent] at present
        cases present

end

omit laws known in
theorem Listed.meets_append (listed : Listed venv data asked db keys) {value : Bytes}
    (stored : db key = some value) (record : IsRecord venv asked key value) :
    Meets Db.Step (QueueSound venv data asked) (fun _ _ => True)
      (if (!inByteArray key keys) = true then
        addKeyValueToDB mpcApprovingKeys (venv.marshalKeys (keys ++ [key])) else pure ()) db := by
  split
  next absent =>
    have unlisted : key ∉ keys := by simpa [inByteArray] using absent
    refine (meets_addKeyValueToDB ⟨keys, listed⟩ ?_).weaken fun _ _ _ => trivial
    refine ⟨keys ++ [key], listed.update_list ?_ fun other member => ?_⟩
    · rw [← List.concat_eq_append]
      exact listed.distinct.concat unlisted
    · rcases List.mem_append.mp member with old | new
      · exact listed.records other old
      · obtain rfl := List.mem_singleton.mp new
        exact ⟨value, stored, record⟩
  next => exact meets_ok ⟨keys, listed⟩ trivial

section

variable (sound : QueueSound venv data asked db)

include sound

/-- The record of a request goes in before its key does. -/
theorem meets_addApprovingData (request : d ∈ asked) :
    Meets Db.Step (QueueSound venv data asked) (fun _ _ => True) (addApprovingData venv d) db := by
  obtain ⟨keys, listed⟩ := id sound
  unfold addApprovingData
  simp only [getDB_bind, has_bind, get_bind]
  refine meets_getDB sound fun answer => meets_unwrap_bind sound fun _ _ => ?_
  refine meets_has sound fun answer _ => meets_unwrap_bind sound fun isExist _ => ?_
  split
  · exact meets_ok sound trivial
  refine meets_get sound fun answer found missing => ?_
  refine (listed.readApprovingKeys laws known found missing).bind ?_
  intro approvingKeys t ⟨sameKeys, sameDb⟩
  rw [sameKeys, sameDb]
  refine meets_has sound fun answer tells => meets_unwrap_bind sound fun exist returned => ?_
  have recorded := tells exist returned
  have record : IsRecord venv asked (buildKeyFromData venv.toEnv d .approving)
      (venv.marshalData d) := ⟨d, request, rfl, rfl⟩
  split
  · exact meets_ok sound trivial
  by_cases absent : (!exist) = true
  · -- Without a record the key cannot be in the list.
    have missing : db (buildKeyFromData venv.toEnv d .approving) = none := by
      simpa [recorded] using absent
    have unlisted : buildKeyFromData venv.toEnv d .approving ∉ keys := by
      intro inKeys
      obtain ⟨value, stored, -⟩ := listed.records _ inKeys
      rw [missing] at stored
      cases stored
    have after := listed.update_other (buildKeyFromData_ne_list _ _ _) unlisted
      fun _ _ _ _ same => Option.some.inj same ▸ record
    rw [if_pos absent]
    refine (meets_addKeyValueToDB sound ⟨_, after⟩).bind ?_
    rintro _ _ rfl
    exact after.meets_append (Function.update_self ..) record
  · rw [if_neg absent]
    obtain ⟨value, stored⟩ : ∃ value, db (buildKeyFromData venv.toEnv d .approving) = some value :=
      Option.ne_none_iff_exists'.mp (by simpa [recorded] using absent)
    exact listed.meets_append stored (listed.contents d (known d request) value stored)

/-- The key of an approved request goes out of the list before its record is deleted. -/
theorem meets_approveOneData (member : d ∈ data) :
    Meets Db.Step (QueueSound venv data asked) (fun _ _ => True) (approveOneData venv d) db := by
  obtain ⟨keys, listed⟩ := id sound
  have reads := listed.reads laws known
  unfold approveOneData
  simp only [getDB_bind, has_bind, get_bind, delete_bind]
  refine meets_getDB sound fun answer => meets_unwrap_bind sound fun _ _ => ?_
  refine meets_get sound fun answer found _ => meets_unwrap_bind sound fun ret returned => ?_
  have stored := found ret returned
  rcases listed.list with ⟨absent, -⟩ | present
  -- without a list the lookup fails
  · rw [absent] at stored
    cases stored
  obtain rfl : venv.marshalKeys keys = ret := Option.some.inj (present.symm.trans stored)
  rw [reads.unmarshal, unwrap_ok, done_ok_bind]
  split
  · exact meets_ok sound trivial
  next inList =>
    refine meets_has sound fun answer _ => ?_
    split
    · have approved := listed.update_approved laws known member (some (venv.marshalData d))
      refine (meets_addKeyValueToDB sound ⟨_, approved⟩).bind ?_
      rintro _ _ rfl
      -- at this point the key is in the list, so exactly it goes out
      have remaining : deleteInByteArray (buildKeyFromData venv.toEnv d .approving) keys =
          keys.filter (fun value => value ≠ buildKeyFromData venv.toEnv d .approving) := by
        rw [deleteInByteArray, if_neg inList]
      rw [remaining]
      have shorter := approved.update_list
        (listed.distinct.filter (fun value => value ≠ buildKeyFromData venv.toEnv d .approving))
        fun key inKeys => approved.records key (List.mem_of_mem_filter inKeys)
      refine (meets_addKeyValueToDB ⟨_, approved⟩ ⟨_, shorter⟩).bind ?_
      rintro _ _ rfl
      refine meets_call ⟨_, shorter⟩ fun answer t taken => ?_
      have after : QueueSound venv data asked t := by
        -- only the record goes, and the list does not name it any more
        rcases Db.step_delete taken with rfl | rfl
        · refine ⟨_, shorter.update_other (buildKeyFromData_ne_list _ _ _) (by simp) ?_⟩
          intro _ _ _ _ same
          cases same
        · exact ⟨_, shorter⟩
      cases answer with
      | ok _ => exact meets_ok after trivial
      | error error => exact meets_err after
    · exact meets_err sound

theorem meets_addOneValidData (member : d ∈ data) :
    Meets Db.Step (QueueSound venv data asked) (fun _ _ => True) (addOneValidData venv d) db := by
  obtain ⟨keys, listed⟩ := id sound
  unfold addOneValidData
  simp only [getDB_bind, has_bind]
  refine meets_getDB sound fun answer => meets_unwrap_bind sound fun _ _ => ?_
  refine meets_has sound fun answer _ => ?_
  split
  · exact meets_err sound
  · exact meets_err sound
  · refine (meets_addKeyValueToDB sound ?_).weaken fun _ _ _ => trivial
    exact ⟨keys, listed.update_approved laws known member _⟩

end

end Sound

theorem databaseAfter_serial (venv : ValEnv) (calls : List QueueCall) :
    Serial Db.Step (QueueCall.program venv) Db.empty calls (databaseAfter venv calls) := by
  induction calls using List.reverseRecOn with
  | nil => exact .nil _
  | append_singleton calls call ih =>
    rw [databaseAfter_append]
    exact .snoc ih (exec_run Db.Step.takes _ _)

/-- The keys that the stored list is read as. -/
def ApprovingKeys (venv : ValEnv) (db : Db) (keys : List Bytes) : Prop :=
  match db mpcApprovingKeys with
  | none => keys = []
  | some text => venv.unmarshalKeys text = .ok keys

theorem ApprovingKeys.of_holdsList {keys : List Bytes} (holds : HoldsList venv db keys)
    (reads : ReadsList venv keys) : ApprovingKeys venv db keys := by
  unfold ApprovingKeys
  rcases holds with ⟨missing, empty⟩ | stored
  · rw [missing]
    exact empty
  · rw [stored]
    exact reads.unmarshal

theorem received_subset (calls : List QueueCall) : ∀ d ∈ received calls,
    d ∈ calls.map QueueCall.data := by
  intro d member
  obtain ⟨call, started, requests⟩ := List.mem_filterMap.mp member
  cases call <;> cases requests
  exact List.mem_map_of_mem started

theorem serial_queueSound {calls : List QueueCall}
    (laws : QueueLaws venv (calls.map QueueCall.data))
    (serial : Serial Db.Step (QueueCall.program venv) Db.empty calls db) :
    QueueSound venv (calls.map QueueCall.data) (received calls) db := by
  have asked := received_subset calls
  refine serial.keeps ?_ ⟨[], .inl ⟨rfl, rfl⟩, List.nodup_nil, by simp, by simp [Db.empty]⟩
  intro call started t sound
  have member : call.data ∈ calls.map QueueCall.data := List.mem_map_of_mem started
  cases call with
  | addApprovingData d =>
    exact meets_addApprovingData laws asked sound (List.mem_filterMap.mpr ⟨_, started, rfl⟩)
  | approveOneData d => exact meets_approveOneData laws asked sound member
  | addOneValidData d => exact meets_addOneValidData laws asked sound member

/-- Wherever calls are cut off or fail, the list of keys has no key twice and names only records
that are there. When none is, it names all of them, and the operator is shown one item for each
key in the list: the first data received for it, in the order of arrival. -/
theorem approval_queue_sound (venv : ValEnv) (calls : List QueueCall)
    (laws : QueueLaws venv (calls.map QueueCall.data))
    (readsData : ∀ d ∈ calls.map QueueCall.data, venv.unmarshalData (venv.marshalData d) = .ok d) :
    (∀ db, Serial Db.Step (QueueCall.program venv) Db.empty calls db → ∃ keys,
      ApprovingKeys venv db keys ∧ keys.Nodup ∧ ∀ key ∈ keys, ∃ d ∈ received calls,
        key = buildKeyFromData venv.toEnv d .approving ∧ db key = some (venv.marshalData d)) ∧
    ∃ keys items, ApprovingKeys venv (databaseAfter venv calls) keys ∧
      (∀ key, (databaseAfter venv calls key).isSome → key ∈ keys ∨ key = mpcApprovingKeys ∨
        ∃ d ∈ calls.map QueueCall.data, key = buildKeyFromData venv.toEnv d .approved) ∧
      (getDataForApprove venv).run Db.handle (databaseAfter venv calls) =
        (.ok items, databaseAfter venv calls) ∧
      items.map (buildKeyFromData venv.toEnv · .approving) = keys ∧
      items.Sublist (received calls) ∧
      ∀ d ∈ items, (received calls).find? (fun r => buildKeyFromData venv.toEnv r .approving =
        buildKeyFromData venv.toEnv d .approving) = some d := by
  constructor
  · intro db serial
    obtain ⟨keys, listed⟩ := serial_queueSound laws serial
    refine ⟨keys, .of_holdsList listed.list (listed.reads laws (received_subset calls)),
      listed.distinct, fun key member => ?_⟩
    obtain ⟨value, stored, d, request, same, rfl⟩ := listed.records key member
    exact ⟨d, request, same, stored⟩
  -- the calls have run one after the other, as on the abstract queue
  · have refines := databaseAfter_refines laws fun call started => List.mem_map_of_mem started
    have fair := Queue.run_fair calls
    have reads := refines.reads laws fair.distinct
    refine ⟨_, (Queue.run calls).waiting, .of_holdsList refines.list reads, ?_, ?_, rfl, fair.order,
      ?_⟩
    · intro key recorded
      rcases refines.keys key recorded with list | ⟨d, member, rfl | approved⟩
      · exact .inr (.inl list)
      · exact .inl ((refines.mem_keys_iff laws member).mpr ((refines.records d member).mp recorded))
      · exact .inr (.inr ⟨d, member, approved⟩)
    · exact run_getDataForApprove refines.list reads refines.stored
        fun d waits => readsData d (refines.known d waits)
    · intro d waits
      rw [← fair.first d waits]
      refine List.find?_congr fun r request => ?_
      simp only [sameKey_iff laws (received_subset calls r request) (refines.known d waits)]

/-- The request of one member to sign one byte. -/
def sampleData : SendData := ⟨baseBytes, [1], []⟩

def otherData : SendData := ⟨baseBytes, [2], []⟩

/-- Keccak-256 on the keys of the two requests, their JSON, and JSON of lists of keys. -/
def queueEnv : ValEnv :=
  { sampleEnv.toValEnv with
    keccak256 := fun bytes =>
      if bytes = keyString otherData .approved then
        word 0x6d136446119105f6d96d41f04634b169ab8a231d9d0ff1147a66027d2f59cbb5
      else if bytes = keyString otherData .approving then
        word 0x4caa53927c9975a6899d3421e56eeb4580925ce8763bdc0919aa352b8b0a81d1
      else sampleEnv.keccak256 bytes
    unmarshalData := fun text =>
      if text = jsonData otherData then .ok otherData else .ok sampleData
    marshalKeys := jsonArray
    unmarshalKeys := fun text => .ok (readJsonArray text) }

theorem queueEnv_reads (keys : List Bytes) : ReadsList queueEnv keys :=
  ⟨congrArg Except.ok (readJsonArray_jsonArray keys), jsonArray_ne_nil keys⟩

theorem queueEnv_laws : QueueLaws queueEnv [sampleData, otherData] := by
  have apart (status status' : Status) : ∀ d ∈ [sampleData, otherData],
      ∀ d' ∈ [sampleData, otherData],
      queueEnv.keccak256 (keyString d status) = queueEnv.keccak256 (keyString d' status') →
        keyString d status = keyString d' status' := by
    cases status <;> cases status' <;> decide +kernel
  exact ⟨fun d member d' member' status status' => apart status status' d member d' member',
    fun keys _ _ => queueEnv_reads keys⟩

/-- The second of two requests is cut off after its first write, or runs to its end. -/
theorem approval_queue_sound_interrupted :
    let calls := [QueueCall.addApprovingData sampleData, .addApprovingData otherData]
    let cut := (addApprovingData queueEnv otherData).runCut Db.handle DbOp.isWrite 1
      (databaseAfter queueEnv [.addApprovingData sampleData])
    (∃ keys, ApprovingKeys queueEnv cut keys ∧ keys.Nodup ∧ ∀ key ∈ keys, (cut key).isSome) ∧
      (getDataForApprove queueEnv).run Db.handle (databaseAfter queueEnv calls) =
        (.ok [sampleData, otherData], databaseAfter queueEnv calls) := by
  intro calls cut
  obtain ⟨sound, keys, items, listed, -, shown, sameKeys, order, -⟩ :=
    approval_queue_sound queueEnv calls queueEnv_laws (by decide +kernel)
  constructor
  · obtain ⟨keys, listed, distinct, records⟩ :=
      sound cut (.snoc (databaseAfter_serial queueEnv [.addApprovingData sampleData])
        (exec_runCut Db.Step.takes _ _ _))
    refine ⟨keys, listed, distinct, fun key member => ?_⟩
    obtain ⟨d, -, -, stored⟩ := records key member
    rw [stored, Option.isSome_some]
  · -- the list has two keys, so that both requests are shown
    have two : keys.length = 2 := by
      have stored : databaseAfter queueEnv calls mpcApprovingKeys = some (jsonArray
          ([sampleData, otherData].map (buildKeyFromData queueEnv.toEnv · .approving))) := by
        decide +kernel
      rw [ApprovingKeys, stored] at listed
      rw [← Except.ok.inj ((queueEnv_reads _).unmarshal.symm.trans listed)]
      rfl
    rw [shown, order.eq_of_length (by rw [← List.length_map, sameKeys, two]; rfl)]
    rfl

end SchnorrMpc
