import SchnorrMpc.Properties.ApprovalQueue

/-!
# What approval reports, and what an interrupted call leaves

An operator learns from the result of each item whether it is approved. A call
is up to three writes, and may be cut off between them and started again.
-/
namespace SchnorrMpc

open Lib DbM Prog

/-- The data waits for approval: it has a record, or its key is in the list. -/
def Pending (venv : ValEnv) (db : Db) (d : SendData) : Prop :=
  (db (buildKeyFromData venv.toEnv d .approving)).isSome ∨
    ∃ keys, ApprovingKeys venv db keys ∧ buildKeyFromData venv.toEnv d .approving ∈ keys

/-- The list and the record of one data, in a database that only whole calls have written. -/
structure Settled (venv : ValEnv) (db : Db) (d : SendData) (keys : List Bytes) : Prop where
  list : HoldsList venv db keys
  reads : ReadsList venv keys
  rest : ReadsList venv
    (keys.filter (fun value => value ≠ buildKeyFromData venv.toEnv d .approving))
  more : buildKeyFromData venv.toEnv d .approving ∉ keys →
    ReadsList venv (keys ++ [buildKeyFromData venv.toEnv d .approving])
  agrees : (db (buildKeyFromData venv.toEnv d .approving)).isSome ↔
    buildKeyFromData venv.toEnv d .approving ∈ keys
  apart : buildKeyFromData venv.toEnv d .approving ≠ buildKeyFromData venv.toEnv d .approved

theorem databaseAfter_settled {venv : ValEnv} {data : List SendData} (laws : QueueLaws venv data)
    (calls : List QueueCall) (known : ∀ call ∈ calls, call.data ∈ data) {d : SendData}
    (member : d ∈ data) : ∃ keys, Settled venv (databaseAfter venv calls) d keys := by
  have refines := databaseAfter_refines laws known
  have distinct := (Queue.run_fair calls).distinct
  refine ⟨_, refines.list, refines.reads laws distinct,
    refines.reads_of_sublist laws distinct List.filter_sublist, fun fresh => ?_, ?_,
    approving_ne_approved laws.noCollision member member⟩
  · rw [← List.concat_eq_append]
    refine laws.readsList _ ((refines.nodup_keys laws distinct).concat fresh) fun key listed => ?_
    rw [List.concat_eq_append] at listed
    rcases List.mem_append.mp listed with old | new
    · obtain ⟨w, waiting, rfl⟩ := List.mem_map.mp old
      exact ⟨w, refines.known w waiting, rfl⟩
    · exact ⟨d, member, List.mem_singleton.mp new⟩
  · rw [refines.records d member, refines.mem_keys_iff laws member]

section Settled

variable {venv : ValEnv} {db : Db} {d : SendData} {keys : List Bytes}

theorem Settled.pending_iff (settled : Settled venv db d keys) :
    Pending venv db d ↔ buildKeyFromData venv.toEnv d .approving ∈ keys := by
  have read := ApprovingKeys.of_holdsList settled.list settled.reads
  constructor
  · rintro (recorded | ⟨keys', read', member⟩)
    · exact settled.agrees.mp recorded
    · -- The list is read in one way only.
      unfold ApprovingKeys at read read'
      cases stored : db mpcApprovingKeys with
      | none =>
        rw [stored] at read'
        simp [show keys' = [] from read'] at member
      | some text =>
        rw [stored] at read read'
        rwa [Except.ok.inj (read.symm.trans read')]
  · exact fun member => .inr ⟨keys, read, member⟩

theorem Settled.list_ne_none (settled : Settled venv db d keys)
    (member : buildKeyFromData venv.toEnv d .approving ∈ keys) : db mpcApprovingKeys ≠ none := by
  rcases settled.list with ⟨-, rfl⟩ | stored
  · simp at member
  · simp [stored]

/-- One item, with the databases before and after it. -/
theorem Settled.truthful_iff {after : Db} {keys' : List Bytes} (settled : Settled venv db d keys)
    (settled' : Settled venv after d keys')
    (step : after = ((approveOneData venv d).run Db.handle db).2) {reported : Prop}
    (reports : reported ↔ db mpcApprovingKeys ≠ none) :
    ((reported ↔ after (buildKeyFromData venv.toEnv d .approved) = some (venv.marshalData d) ∧
          ¬Pending venv after d) ∧
        (¬reported → after = db)) ↔
      Pending venv db d ∨
        (db (buildKeyFromData venv.toEnv d .approved) = some (venv.marshalData d) ↔
        db mpcApprovingKeys ≠ none) := by
  rw [run_approveOneData settled.list settled.reads d settled.agrees.mpr] at step
  dsimp only at step
  rw [reports, settled.pending_iff, settled'.pending_iff, ← settled'.agrees]
  by_cases waits : buildKeyFromData venv.toEnv d .approving ∈ keys
  · -- The record moves: the item is approved and waits no more.
    have listed := settled.list_ne_none waits
    rw [if_pos waits] at step
    have approved : after (buildKeyFromData venv.toEnv d .approved) =
        some (venv.marshalData d) := by
      rw [step, Function.update_of_ne settled.apart.symm,
        Function.update_of_ne (buildKeyFromData_ne_list _ _ _), Function.update_self]
    have gone : after (buildKeyFromData venv.toEnv d .approving) = none := by
      rw [step, Function.update_self]
    simp [waits, gone, approved, listed]
  · -- Nothing changes, whatever is reported.
    rw [if_neg waits] at step
    simp only [step, settled.agrees, waits, not_false_eq_true, and_true, false_or, implies_true]
    exact iff_comm

end Settled

/-! ### The results of one call for many data -/

/-- Each item is approved in the database that the items before it have left; its result is an
error exactly when there is no list. -/
theorem run_approveEach {venv : ValEnv} {data : List SendData} (calls : List QueueCall)
    (laws : QueueLaws venv (calls.map QueueCall.data ++ data)) :
    ∃ results, (approveEach venv data).run Db.handle (databaseAfter venv calls) =
        (.ok results, databaseAfter venv (calls ++ data.map .approveOneData)) ∧
      results.length = data.length ∧
      ∀ i d, data[i]? = some d → (results[i]? = some (.ok ()) ↔
        databaseAfter venv (calls ++ (data.take i).map .approveOneData) mpcApprovingKeys ≠
          none) := by
  induction data generalizing calls with
  | nil => exact ⟨[], by simp [approveEach], rfl, by simp⟩
  | cons d data ih =>
    obtain ⟨keys, settled⟩ := databaseAfter_settled laws calls
      (fun call member => List.mem_append_left _ (List.mem_map_of_mem member))
      (List.mem_append_right _ List.mem_cons_self)
    obtain ⟨results, ran, length, reports⟩ := ih (calls ++ [.approveOneData d])
      (by simpa [QueueCall.data] using laws)
    -- The result of the first item, as a value.
    obtain ⟨result, first, reported⟩ : ∃ result : Except Err Unit,
        (approveOneData venv d).attempt.run Db.handle (databaseAfter venv calls) =
          (.ok result, databaseAfter venv (calls ++ [.approveOneData d])) ∧
        (result = .ok () ↔ databaseAfter venv calls mpcApprovingKeys ≠ none) := by
      rw [run_attempt, databaseAfter_append, QueueCall.program,
        run_approveOneData settled.list settled.reads d settled.agrees.mpr]
      by_cases missing : databaseAfter venv calls mpcApprovingKeys = none
      · exact ⟨.error errNotFound, by simp [missing], by simp [missing]⟩
      · exact ⟨.ok (), by simp [missing], by simp [missing]⟩
    refine ⟨result :: results, ?_, by simp [length], fun i e found => ?_⟩
    · rw [approveEach, run_bind _ _ _ _ first, run_bind _ _ _ _ ran]
      simp
    · cases i with
      | zero => simpa using reported
      | succ i => simpa using reports i e (by simpa using found)

/-- The result of an item is true, and an item that fails changes nothing, exactly when the item
waits as it is processed, or there is a list of keys exactly when the item is approved already. -/
theorem approveData_truthful_iff (venv : ValEnv) (calls : List QueueCall) (data : List SendData)
    (laws : QueueLaws venv (calls.map QueueCall.data ++ data)) :
    ∃ results, (approveData venv data).run Db.handle (databaseAfter venv calls) =
        (.ok results, databaseAfter venv (calls ++ data.map .approveOneData)) ∧
      results.length = data.length ∧
      ∀ i d, data[i]? = some d →
        let before := databaseAfter venv (calls ++ (data.take i).map .approveOneData)
        let after := databaseAfter venv (calls ++ (data.take (i + 1)).map .approveOneData)
        let approvedKey := buildKeyFromData venv.toEnv d .approved
        ((results[i]? = some (.ok ()) ↔
              after approvedKey = some (venv.marshalData d) ∧ ¬Pending venv after d) ∧
            (results[i]? ≠ some (.ok ()) → after = before) ↔
          Pending venv before d ∨
            (before approvedKey = some (venv.marshalData d) ↔ before mpcApprovingKeys ≠ none)) := by
  obtain ⟨results, ran, length, reports⟩ := run_approveEach calls laws
  refine ⟨results, ran, length, fun i d found => ?_⟩
  intro before after approvedKey
  have member : d ∈ data := List.mem_of_getElem? found
  have known (n : Nat) : ∀ call ∈ calls ++ (data.take n).map .approveOneData,
      call.data ∈ calls.map QueueCall.data ++ data := by
    intro call started
    rcases List.mem_append.mp started with earlier | now
    · exact List.mem_append_left _ (List.mem_map_of_mem earlier)
    · obtain ⟨e, taken, rfl⟩ := List.mem_map.mp now
      exact List.mem_append_right _ (List.mem_of_mem_take taken)
  obtain ⟨keys, settled⟩ := databaseAfter_settled laws _ (known i) (List.mem_append_right _ member)
  obtain ⟨keys', settled'⟩ :=
    databaseAfter_settled laws _ (known (i + 1)) (List.mem_append_right _ member)
  refine settled.truthful_iff settled' ?_ (reports i d found)
  rw [List.take_add_one, found, Option.toList_some, List.map_append, ← List.append_assoc]
  exact databaseAfter_append venv _ (.approveOneData d)

/-- A request is received and approved. -/
theorem approveData_truthful_iff_received :
    ∃ results, (approveData queueEnv [sampleData]).run Db.handle
        (databaseAfter queueEnv [.addApprovingData sampleData]) =
          (.ok results, databaseAfter queueEnv
            [.addApprovingData sampleData, .approveOneData sampleData]) ∧
      results.length = 1 ∧ results[0]? = some (.ok ()) := by
  obtain ⟨results, ran, length, each⟩ := approveData_truthful_iff queueEnv
    [.addApprovingData sampleData] [sampleData] (queueEnv_laws.subset (by simp [QueueCall.data]))
  have pending : Pending queueEnv (databaseAfter queueEnv [.addApprovingData sampleData])
      sampleData := .inl (by decide +kernel)
  obtain ⟨reports, -⟩ := (each 0 sampleData rfl).mpr (.inl pending)
  refine ⟨results, ran, length, reports.mpr ⟨by decide +kernel, ?_⟩⟩
  rintro (recorded | ⟨keys, read, member⟩)
  · exact absurd recorded (by decide +kernel)
  · obtain rfl : keys = [] := by
      have text : databaseAfter queueEnv ([.addApprovingData sampleData] ++
          ([sampleData].take 1).map .approveOneData) mpcApprovingKeys = some (utf8 "[]") := by
        decide +kernel
      rw [ApprovingKeys, text] at read
      exact (Except.ok.inj read).symm
    simp at member

/-- Data that nobody asked for is reported as approved and is not. Data that is approved already is
reported with an error while nobody has asked for anything. -/
theorem approveData_untrue :
    let other : SendData := ⟨baseBytes, [2], []⟩
    let waiting := databaseAfter queueEnv [.addApprovingData sampleData]
    let approved := databaseAfter queueEnv [.addOneValidData sampleData]
    (((approveData queueEnv [other]).run Db.handle waiting).1 = .ok [.ok ()] ∧
        ((approveData queueEnv [other]).run Db.handle waiting).2
          (buildKeyFromData queueEnv.toEnv other .approved) = none) ∧
      ((approveData queueEnv [sampleData]).run Db.handle approved).1 = .ok [.error errNotFound] ∧
        approved (buildKeyFromData queueEnv.toEnv sampleData .approved) =
          some (queueEnv.marshalData sampleData) := by
  refine ⟨⟨?_, ?_⟩, ?_, ?_⟩ <;> decide +kernel

/-! ### Interrupted calls -/

/-- The database after the first `n` writes of a call. -/
def cutAfter {α : Type} (p : DbM α) (n : Nat) (db : Db) : Db := p.runCut Db.handle DbOp.isWrite n db

section Cut

variable {α : Type} (key value : Bytes) (n : Nat) (db : Db)

@[simp] theorem cutAfter_done (result : Outcome Err α) : cutAfter (done result) n db = db := rfl

@[simp] theorem cutAfter_getDB (next : Except Err Unit → DbM α) :
    cutAfter (.call .getDB next) n db = cutAfter (next (.ok ())) n db :=
  runCut_read rfl ..

@[simp] theorem cutAfter_has (next : Except Err Bool → DbM α) :
    cutAfter (.call (.has key) next) n db = cutAfter (next (.ok (db key).isSome)) n db :=
  runCut_read rfl ..

@[simp] theorem cutAfter_get (next : Except Err Bytes → DbM α) :
    cutAfter (.call (.get key) next) n db = cutAfter (next (Db.handle (.get key) db).1) n db :=
  runCut_read rfl ..

section

variable (next : Except Err Unit → DbM α)

include next

@[simp] theorem cutAfter_put_zero :
    cutAfter (.call (.put key value) next) 0 db = db := rfl

@[simp] theorem cutAfter_delete_zero :
    cutAfter (.call (.delete key) next) 0 db = db := rfl

@[simp] theorem cutAfter_put_succ :
    cutAfter (.call (.put key value) next) (n + 1) db =
      cutAfter (next (.ok ())) n (Function.update db key (some value)) :=
  runCut_succ rfl ..

@[simp] theorem cutAfter_delete_succ :
    cutAfter (.call (.delete key) next) (n + 1) db =
      cutAfter (next (.ok ())) n (Function.update db key none) :=
  runCut_succ rfl ..

end

private theorem get_put : (Db.handle (.get key) (Function.update db key (some value))).1 =
    .ok value := by
  simp [Db.handle]

@[simp] theorem cutAfter_addKeyValueToDB_zero : cutAfter (addKeyValueToDB key value) 0 db = db :=
  rfl

@[simp] theorem cutAfter_addKeyValueToDB_succ :
    cutAfter (addKeyValueToDB key value) (n + 1) db = Function.update db key (some value) := by
  simp [addKeyValueToDB, get_put]

@[simp] theorem cutAfter_addKeyValueToDB_bind_zero (next : Unit → DbM α) :
    cutAfter (addKeyValueToDB key value >>= next) 0 db = db := rfl

@[simp] theorem cutAfter_addKeyValueToDB_bind_succ (next : Unit → DbM α) :
    cutAfter (addKeyValueToDB key value >>= next) (n + 1) db =
      cutAfter (next ()) n (Function.update db key (some value)) := by
  simp [addKeyValueToDB, get_put]

end Cut

section Heal

variable {venv : ValEnv} {db : Db} {d : SendData} {keys : List Bytes}

section

variable (settled : Settled venv db d keys)

include settled

theorem cutAfter_approveOneData (n : Nat) :
    cutAfter (approveOneData venv d) n db =
      if buildKeyFromData venv.toEnv d .approving ∈ keys then
        match n with
        | 0 => db
        | 1 => Function.update db (buildKeyFromData venv.toEnv d .approved)
          (some (venv.marshalData d))
        | 2 => Function.update (Function.update db (buildKeyFromData venv.toEnv d .approved)
            (some (venv.marshalData d))) mpcApprovingKeys (some (venv.marshalKeys
              (keys.filter (fun value => value ≠ buildKeyFromData venv.toEnv d .approving))))
        | _ => ((approveOneData venv d).run Db.handle db).2
      else db := by
  rw [run_approveOneData settled.list settled.reads d settled.agrees.mpr]
  unfold approveOneData
  rcases settled.list with ⟨missing, rfl⟩ | stored
  · simp [Db.handle, missing]
  · have got : (Db.handle (.get mpcApprovingKeys) db).1 = .ok (venv.marshalKeys keys) := by
      simp [Db.handle, stored]
    simp only [getDB_bind, get_bind, cutAfter_getDB, cutAfter_get, unwrap_ok, done_ok_bind, got,
      settled.reads.unmarshal]
    by_cases member : buildKeyFromData venv.toEnv d .approving ∈ keys
    · have exist := settled.agrees.mpr member
      rcases n with _ | _ | _ | n <;>
        simp [inByteArray, deleteInByteArray, member, exist]
    · simp [inByteArray, member]

theorem cutAfter_addApprovingData (n : Nat) :
    cutAfter (addApprovingData venv d) n db =
      if (db (buildKeyFromData venv.toEnv d .approved)).isSome ∨
          buildKeyFromData venv.toEnv d .approving ∈ keys then db
      else
        match n with
        | 0 => db
        | 1 => Function.update db (buildKeyFromData venv.toEnv d .approving)
          (some (venv.marshalData d))
        | _ => ((addApprovingData venv d).run Db.handle db).2 := by
  rw [run_addApprovingData settled.list settled.reads d settled.agrees]
  have listed := readApprovingKeys_eq settled.list settled.reads
  unfold addApprovingData
  simp only [getDB_bind, has_bind, get_bind, cutAfter_getDB, cutAfter_has, unwrap_ok, done_ok_bind]
  by_cases approved : (db (buildKeyFromData venv.toEnv d .approved)).isSome
  · simp [approved]
  · by_cases member : buildKeyFromData venv.toEnv d .approving ∈ keys
    · simp [approved, listed, inByteArray, member, settled.agrees.mpr member]
    · have absent := mt settled.agrees.mp member
      rcases n with _ | _ | n <;>
        simp [approved, listed, inByteArray, member, absent]

/-- Approval that is cut off between the list and the record leaves the record for good. -/
theorem heals_approveOneData (returns : ((approveOneData venv d).run Db.handle db).1 = .ok ())
    (n : Nat) :
    (approveOneData venv d).run Db.handle (cutAfter (approveOneData venv d) n db) =
        (.ok (), ((approveOneData venv d).run Db.handle db).2) ↔
      ¬(buildKeyFromData venv.toEnv d .approving ∈ keys ∧ n = 2) := by
  have noList := (buildKeyFromData_ne_list venv.toEnv d · |>.symm)
  have run := run_approveOneData settled.list settled.reads d settled.agrees.mpr
  rw [cutAfter_approveOneData settled]
  by_cases member : buildKeyFromData venv.toEnv d .approving ∈ keys
  · have listed := settled.list_ne_none member
    have stored : db mpcApprovingKeys = some (venv.marshalKeys keys) :=
      settled.list.resolve_left fun missing => listed missing.1
    rw [if_pos member, if_neg listed] at run
    -- Once the key is struck off the list, nothing is done any more.
    have idle (t : Db) (struck : t mpcApprovingKeys = some (venv.marshalKeys
        (keys.filter (fun value => value ≠ buildKeyFromData venv.toEnv d .approving)))) :
        (approveOneData venv d).run Db.handle t = (.ok (), t) := by
      rw [run_approveOneData (.inr struck) settled.rest d (by simp)]
      simp [struck]
    rw [if_pos member]
    match n with
    | 0 => simp [run]
    | 1 =>
      have kept : Function.update db (buildKeyFromData venv.toEnv d .approved)
          (some (venv.marshalData d)) mpcApprovingKeys = some (venv.marshalKeys keys) := by
        rw [Function.update_of_ne (noList _), stored]
      change (approveOneData venv d).run Db.handle (Function.update db _ _) = _ ↔ _
      rw [run, run_approveOneData (.inr kept) settled.reads d
        (by rw [Function.update_of_ne settled.apart]; exact settled.agrees.mpr)]
      simp [member, kept]
    | 2 =>
      change (approveOneData venv d).run Db.handle (Function.update _ mpcApprovingKeys _) = _ ↔ _
      rw [run, idle _ (Function.update_self ..)]
      refine iff_of_false (fun same => ?_) (fun never => never ⟨member, rfl⟩)
      -- The record is still there, and should not be.
      have record := congrFun (congrArg Prod.snd same) (buildKeyFromData venv.toEnv d .approving)
      dsimp only at record
      rw [Function.update_self, Function.update_of_ne (noList _).symm,
        Function.update_of_ne settled.apart] at record
      exact absurd (settled.agrees.mpr member) (by simp [record])
    | n + 3 =>
      change (approveOneData venv d).run Db.handle ((approveOneData venv d).run Db.handle db).2 =
        _ ↔ _
      rw [run, idle _ (by dsimp only; rw [Function.update_of_ne (noList _), Function.update_self])]
      simp
  · simp [member, Prod.ext_iff, returns]

/-- A request that is cut off is completed by the same request. -/
theorem heals_addApprovingData (n : Nat) :
    (addApprovingData venv d).run Db.handle (cutAfter (addApprovingData venv d) n db) =
      (.ok (), ((addApprovingData venv d).run Db.handle db).2) := by
  have noList := (buildKeyFromData_ne_list venv.toEnv d · |>.symm)
  have run := run_addApprovingData settled.list settled.reads d settled.agrees
  rw [cutAfter_addApprovingData settled]
  by_cases known : (db (buildKeyFromData venv.toEnv d .approved)).isSome ∨
      buildKeyFromData venv.toEnv d .approving ∈ keys
  · rw [if_pos known, run]
  · rw [if_neg known] at run ⊢
    rw [not_or] at known
    match n with
    | 0 => simp [run]
    | 1 =>
      change (addApprovingData venv d).run Db.handle (Function.update db _ _) = _
      rw [run, run_addApprovingData_each _ settled.reads d]
      · simp [Function.update_of_ne settled.apart.symm, known]
      · rw [HoldsList, Function.update_of_ne (noList _)]
        exact settled.list
    | n + 2 =>
      change (addApprovingData venv d).run Db.handle
        ((addApprovingData venv d).run Db.handle db).2 = _
      rw [run, run_addApprovingData_each (.inr (Function.update_self ..)) (settled.more known.2) d]
      simp [Function.update_of_ne (noList _).symm]

end

end Heal

/-- A call that is cut off after any number of its writes and then started again does what it would
have done at once, unless it is the approval of waiting data, cut off after its second write. -/
theorem interrupted_heals_iff (venv : ValEnv) (calls : List QueueCall) (d : SendData)
    (laws : QueueLaws venv (calls.map QueueCall.data ++ [d])) (call : QueueCall)
    (operation : call = .addApprovingData d ∨ call = .approveOneData d)
    (returns : ((call.program venv).run Db.handle (databaseAfter venv calls)).1 = .ok ())
    (n : Nat) :
    let once := (call.program venv).run Db.handle (databaseAfter venv calls)
    let cut := cutAfter (call.program venv) n (databaseAfter venv calls)
    (call.program venv).run Db.handle cut = (.ok (), once.2) ↔
      ¬(call = .approveOneData d ∧ Pending venv (databaseAfter venv calls) d ∧ n = 2) := by
  have member : d ∈ calls.map QueueCall.data ++ [d] := List.mem_append_right _ (by simp)
  have known : ∀ call ∈ calls, call.data ∈ calls.map QueueCall.data ++ [d] :=
    fun call started => List.mem_append_left _ (List.mem_map_of_mem started)
  obtain ⟨keys, settled⟩ := databaseAfter_settled laws calls known member
  intro once cut
  rcases operation with rfl | rfl
  · exact iff_of_true (heals_addApprovingData settled n) (by simp)
  · rw [settled.pending_iff, and_iff_right rfl]
    exact heals_approveOneData settled returns n

/-- A request is cut off after its first write. -/
theorem interrupted_heals_iff_firstWrite :
    let request := addApprovingData queueEnv sampleData
    request.run Db.handle (cutAfter request 1 (databaseAfter queueEnv [])) =
      (.ok (), (request.run Db.handle (databaseAfter queueEnv [])).2) := by
  have heals := interrupted_heals_iff queueEnv [] sampleData (queueEnv_laws.subset (by simp))
    (.addApprovingData sampleData) (.inl rfl) (by decide +kernel) 1
  exact heals.mpr (by simp)

/-- Approval that is cut off after its second write and started again reports success and leaves
the record of the request, which approval at once deletes. -/
theorem interrupted_approval_keeps_record :
    let db := databaseAfter queueEnv [.addApprovingData sampleData]
    let approval := approveOneData queueEnv sampleData
    let record := buildKeyFromData queueEnv.toEnv sampleData .approving
    (approval.run Db.handle (cutAfter approval 2 db)).1 = .ok () ∧
      ((approval.run Db.handle (cutAfter approval 2 db)).2 record).isSome ∧
      (approval.run Db.handle db).1 = .ok () ∧ (approval.run Db.handle db).2 record = none := by
  refine ⟨?_, ?_, ?_, ?_⟩ <;> decide +kernel

end SchnorrMpc
