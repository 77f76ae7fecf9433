import SchnorrMpc.Validator.Spec

/-!
# The queue behind the database

The list of keys and the records under them are two pictures of one queue.
Without faults every call does to the database what it does to the queue.
-/
namespace SchnorrMpc

open Lib DbM Prog

variable {venv : ValEnv} {requests : List SendData} {d d' : SendData}

/-- The calls that change the queue. -/
inductive QueueCall where
  | addApprovingData (d : SendData)
  | approveOneData (d : SendData)
  | addOneValidData (d : SendData)
  deriving DecidableEq, Repr

namespace QueueCall

def data : QueueCall → SendData
  | addApprovingData d => d
  | approveOneData d => d
  | addOneValidData d => d

def program (venv : ValEnv) : QueueCall → DbM Unit
  | addApprovingData d => SchnorrMpc.addApprovingData venv d
  | approveOneData d => SchnorrMpc.approveOneData venv d
  | addOneValidData d => SchnorrMpc.addOneValidData venv d

def request : QueueCall → Option SendData
  | addApprovingData d => some d
  | _ => none

end QueueCall

/-- The requests in the order of their arrival. -/
def received (calls : List QueueCall) : List SendData := calls.filterMap QueueCall.request

/-- What is assumed of the packages for the data of these calls. -/
structure QueueLaws (venv : ValEnv) (data : List SendData) : Prop where
  noCollision : NoCollision venv.toEnv data
  readsList : ∀ keys : List Bytes, keys.Nodup →
    (∀ key ∈ keys, ∃ d ∈ data, key = buildKeyFromData venv.toEnv d .approving) → ReadsList venv keys

theorem QueueLaws.subset {data data' : List SendData} (laws : QueueLaws venv data)
    (fewer : data' ⊆ data) : QueueLaws venv data' := by
  refine ⟨?_, fun keys distinct known => ?_⟩
  · intro d member d' member'
    exact laws.noCollision d (fewer member) d' (fewer member')
  · refine laws.readsList keys distinct fun key member => ?_
    obtain ⟨d, among, same⟩ := known key member
    exact ⟨d, fewer among, same⟩

/-! ### The abstract queue -/

/-- What a key stands for: the two parts of the data, written one after the other. -/
def subject (d : SendData) : Bytes := d.pkBytes ++ d.data

/-- The requests that wait, in the order of their arrival, and what has been approved. -/
structure Queue where
  waiting : List SendData
  approved : List Bytes

namespace Queue

def Waits (q : Queue) (d : SendData) : Prop := ∃ w ∈ q.waiting, subject w = subject d

instance (q : Queue) (d : SendData) : Decidable (q.Waits d) :=
  inferInstanceAs (Decidable (∃ w ∈ q.waiting, subject w = subject d))

def step (q : Queue) : QueueCall → Queue
  | .addApprovingData d =>
    if subject d ∈ q.approved ∨ q.Waits d then q else { q with waiting := q.waiting ++ [d] }
  | .approveOneData d =>
    if q.Waits d then
      ⟨q.waiting.filter (fun w => subject w ≠ subject d), subject d :: q.approved⟩
    else q
  | .addOneValidData d => { q with approved := subject d :: q.approved }

def run (calls : List QueueCall) : Queue := calls.foldl step ⟨[], []⟩

theorem run_append (calls : List QueueCall) (call : QueueCall) :
    run (calls ++ [call]) = (run calls).step call := by
  simp [run]

/-- Requests wait in the order of their arrival, each as the first of its subject; a request that
does not wait is approved. -/
structure Fair (q : Queue) (requests : List SendData) : Prop where
  order : q.waiting.Sublist requests
  first : ∀ d ∈ q.waiting, requests.find? (fun r => subject r = subject d) = some d
  settled : ∀ r ∈ requests, subject r ∈ q.approved ∨ q.Waits r
  distinct : (q.waiting.map subject).Nodup

private theorem Fair.request {q : Queue} (fair : q.Fair requests) (d : SendData) :
    (q.step (.addApprovingData d)).Fair (requests ++ [d]) := by
  have stays (w : SendData) (member : w ∈ q.waiting) :
      (requests ++ [d]).find? (fun r => subject r = subject w) = some w := by
    rw [List.find?_append, fair.first w member]
    rfl
  rw [Queue.step]
  split
  next answered =>
    refine ⟨fair.order.trans (List.sublist_append_left _ _), stays, fun r member => ?_,
      fair.distinct⟩
    rcases List.mem_append.mp member with old | new
    · exact fair.settled r old
    · obtain rfl := List.mem_singleton.mp new
      exact answered
  next fresh =>
    rw [not_or] at fresh
    have unasked : requests.find? (fun r => subject r = subject d) = none := by
      rw [List.find?_eq_none]
      intro r member same
      rw [decide_eq_true_iff] at same
      rcases fair.settled r member with approved | ⟨w, waiting, first⟩
      · exact fresh.1 (same ▸ approved)
      · exact fresh.2 ⟨w, waiting, first.trans same⟩
    refine ⟨fair.order.append (.refl _), fun w member => ?_, fun r member => ?_, ?_⟩
    · rcases List.mem_append.mp member with old | new
      · exact stays w old
      · obtain rfl := List.mem_singleton.mp new
        rw [List.find?_append, unasked]
        simp
    · rcases List.mem_append.mp member with old | new
      · rcases fair.settled r old with approved | ⟨w, waiting, same⟩
        · exact .inl approved
        · exact .inr ⟨w, List.mem_append_left _ waiting, same⟩
      · obtain rfl := List.mem_singleton.mp new
        exact .inr ⟨r, List.mem_append_right _ (List.mem_singleton_self _), rfl⟩
    · rw [List.map_append, List.map_singleton, ← List.concat_eq_append]
      refine fair.distinct.concat fun again => fresh.2 ?_
      obtain ⟨w, waiting, same⟩ := List.mem_map.mp again
      exact ⟨w, waiting, same⟩

private theorem Fair.approve {q : Queue} (fair : q.Fair requests) (d : SendData) :
    (q.step (.approveOneData d)).Fair requests := by
  rw [Queue.step]
  split
  · refine ⟨List.filter_sublist.trans fair.order, fun w member => ?_, fun r member => ?_, ?_⟩
    · exact fair.first w (List.mem_of_mem_filter member)
    · rcases fair.settled r member with approved | ⟨w, waiting, same⟩
      · exact .inl (List.mem_cons_of_mem _ approved)
      · by_cases now : subject w = subject d
        · exact .inl (by rw [← same, now]; exact List.mem_cons_self)
        · exact .inr ⟨w, List.mem_filter.mpr ⟨waiting, decide_eq_true now⟩, same⟩
    · exact fair.distinct.sublist (List.filter_sublist.map _)
  · exact fair

theorem Fair.step {q : Queue} {calls : List QueueCall} (fair : q.Fair (received calls))
    (call : QueueCall) : (q.step call).Fair (received (calls ++ [call])) := by
  rw [received, List.filterMap_append, ← received]
  cases call with
  | addApprovingData d => exact fair.request d
  | approveOneData d =>
    rw [show [QueueCall.approveOneData d].filterMap QueueCall.request = [] from rfl,
      List.append_nil]
    exact fair.approve d
  | addOneValidData d =>
    rw [show [QueueCall.addOneValidData d].filterMap QueueCall.request = [] from rfl,
      List.append_nil]
    refine ⟨fair.order, fair.first, fun r member => ?_, fair.distinct⟩
    exact (fair.settled r member).imp_left (List.mem_cons_of_mem _)

theorem run_fair (calls : List QueueCall) : (run calls).Fair (received calls) := by
  induction calls using List.reverseRecOn with
  | nil => exact ⟨.slnil, by simp [run], by simp [received], by simp [run]⟩
  | append_singleton calls call ih =>
    rw [run_append]
    exact ih.step call

end Queue

/-! ### Without faults the database is the queue -/

/-- The database after the calls, when nothing fails. -/
def databaseAfter (venv : ValEnv) (calls : List QueueCall) : Db :=
  calls.foldl (fun db call => ((call.program venv).run Db.handle db).2) Db.empty

/-- The keys that the calls write under. -/
def QueueKey (venv : ValEnv) (data : List SendData) (key : Bytes) : Prop :=
  key = mpcApprovingKeys ∨ ∃ d ∈ data,
    key = buildKeyFromData venv.toEnv d .approving ∨ key = buildKeyFromData venv.toEnv d .approved

private theorem queueKey_update {data : List SendData} {db : Db} {written : Bytes}
    (isKey : QueueKey venv data written) (value : Option Bytes)
    (keys : ∀ key, (db key).isSome → QueueKey venv data key) :
    ∀ key, (Function.update db written value key).isSome → QueueKey venv data key := by
  intro key found
  by_cases same : key = written
  · exact same ▸ isKey
  · rw [Function.update_of_ne same] at found
    exact keys key found

/-- The database is a picture of the queue. -/
structure Refines (venv : ValEnv) (data : List SendData) (db : Db) (q : Queue) : Prop where
  list : HoldsList venv db (q.waiting.map (buildKeyFromData venv.toEnv · .approving))
  stored : ∀ d ∈ q.waiting, db (buildKeyFromData venv.toEnv d .approving) =
    some (venv.marshalData d)
  records : ∀ d ∈ data, (db (buildKeyFromData venv.toEnv d .approving)).isSome ↔ q.Waits d
  approved : ∀ d ∈ data, (db (buildKeyFromData venv.toEnv d .approved)).isSome ↔
    subject d ∈ q.approved
  known : ∀ d ∈ q.waiting, d ∈ data
  keys : ∀ key, (db key).isSome → QueueKey venv data key

section Refinement

variable {venv : ValEnv} {data : List SendData} (laws : QueueLaws venv data)

include laws

theorem sameKey_iff (member : d ∈ data) (member' : d' ∈ data) (status : Status) :
    buildKeyFromData venv.toEnv d status = buildKeyFromData venv.toEnv d' status ↔
      subject d = subject d' :=
  buildKeyFromData_eq_iff laws.noCollision member member' status

private theorem update_key (member : d ∈ data) (member' : d' ∈ data) (status : Status) (db : Db)
    (value : Option Bytes) :
    Function.update db (buildKeyFromData venv.toEnv d status) value
        (buildKeyFromData venv.toEnv d' status) =
      if subject d' = subject d then value else db (buildKeyFromData venv.toEnv d' status) := by
  have same := sameKey_iff laws member' member status
  split
  next equal => rw [same.mpr equal, Function.update_self]
  next differs => rw [Function.update_of_ne (fun equal => differs (same.mp equal))]

variable {db : Db} {q : Queue} (refines : Refines venv data db q)

include refines

theorem Refines.mem_keys_iff (member : d ∈ data) :
    buildKeyFromData venv.toEnv d .approving ∈
      q.waiting.map (buildKeyFromData venv.toEnv · .approving) ↔ q.Waits d := by
  rw [List.mem_map]
  constructor
  · rintro ⟨w, waiting, same⟩
    exact ⟨w, waiting, (sameKey_iff laws (refines.known w waiting) member _).mp same⟩
  · rintro ⟨w, waiting, same⟩
    exact ⟨w, waiting, (sameKey_iff laws (refines.known w waiting) member _).mpr same⟩

section

variable (distinct : (q.waiting.map subject).Nodup)

include distinct

theorem Refines.nodup_keys : (q.waiting.map (buildKeyFromData venv.toEnv · .approving)).Nodup := by
  refine List.Nodup.map_on ?_ (List.Nodup.of_map subject distinct)
  intro w waiting w' waiting' same
  exact List.inj_on_of_nodup_map distinct waiting waiting'
    ((sameKey_iff laws (refines.known w waiting) (refines.known w' waiting') _).mp same)

theorem Refines.reads_of_sublist {keys : List Bytes}
    (left : keys.Sublist (q.waiting.map (buildKeyFromData venv.toEnv · .approving))) :
    ReadsList venv keys := by
  refine laws.readsList _ ((refines.nodup_keys laws distinct).sublist left) fun key member => ?_
  obtain ⟨w, waiting, rfl⟩ := List.mem_map.mp (left.subset member)
  exact ⟨w, refines.known w waiting, rfl⟩

theorem Refines.reads :
    ReadsList venv (q.waiting.map (buildKeyFromData venv.toEnv · .approving)) :=
  refines.reads_of_sublist laws distinct (.refl _)

end

private theorem Refines.request (member : d ∈ data)
    (fresh : ¬(subject d ∈ q.approved ∨ q.Waits d)) : Refines venv data
      (Function.update (Function.update db (buildKeyFromData venv.toEnv d .approving)
          (some (venv.marshalData d))) mpcApprovingKeys
        (some (venv.marshalKeys (q.waiting.map (buildKeyFromData venv.toEnv · .approving) ++
          [buildKeyFromData venv.toEnv d .approving]))))
      ⟨q.waiting ++ [d], q.approved⟩ := by
  have noList := buildKeyFromData_ne_list venv.toEnv
  rw [not_or] at fresh
  constructor
  -- the list has the new key at its end
  · exact .inr (by rw [Function.update_self, List.map_append, List.map_singleton])
  · intro w waits
    -- records of other requests are under other keys
    rw [Function.update_of_ne (noList _ _)]
    rcases List.mem_append.mp waits with old | new
    · have other : buildKeyFromData venv.toEnv w .approving ≠
          buildKeyFromData venv.toEnv d .approving := fun same =>
        fresh.2 ⟨w, old, (sameKey_iff laws (refines.known w old) member _).mp same⟩
      rw [Function.update_of_ne other]
      exact refines.stored w old
    · obtain rfl := List.mem_singleton.mp new
      exact Function.update_self ..
  · intro d' member'
    have waits : (⟨q.waiting ++ [d], q.approved⟩ : Queue).Waits d' ↔
        q.Waits d' ∨ subject d = subject d' := by
      simp [Queue.Waits, or_and_right, exists_or]
    rw [waits, Function.update_of_ne (noList _ _), update_key laws member member']
    split
    next same => simp [same]
    next differs =>
      rw [refines.records d' member']
      exact ⟨.inl, fun either => either.resolve_right (Ne.symm differs)⟩
  · intro d' member'
    -- the approved records are not touched
    rw [Function.update_of_ne (noList _ _),
      Function.update_of_ne (approving_ne_approved laws.noCollision member member').symm]
    exact refines.approved d' member'
  · intro w waits
    rcases List.mem_append.mp waits with old | new
    · exact refines.known w old
    · obtain rfl := List.mem_singleton.mp new
      exact member
  · exact queueKey_update (.inl rfl) _
      (queueKey_update (.inr ⟨d, member, .inl rfl⟩) _ refines.keys)

private theorem Refines.approve (member : d ∈ data) :
    Refines venv data
      (Function.update (Function.update (Function.update db
          (buildKeyFromData venv.toEnv d .approved) (some (venv.marshalData d)))
        mpcApprovingKeys (some (venv.marshalKeys
          ((q.waiting.map (buildKeyFromData venv.toEnv · .approving)).filter
            (fun value => value ≠ buildKeyFromData venv.toEnv d .approving)))))
        (buildKeyFromData venv.toEnv d .approving) none)
      ⟨q.waiting.filter (fun w => subject w ≠ subject d), subject d :: q.approved⟩ := by
  have noList := buildKeyFromData_ne_list venv.toEnv
  constructor
  -- the list without the key is that of the requests that still wait
  · refine .inr ?_
    rw [Function.update_of_ne (noList _ _).symm, Function.update_self, List.filter_map]
    congr 3
    refine List.filter_congr fun w waits => ?_
    simp only [Function.comp, ne_eq, sameKey_iff laws (refines.known w waits) member]
  · intro w waits
    obtain ⟨old, other⟩ := List.mem_filter.mp waits
    have differs : buildKeyFromData venv.toEnv w .approving ≠
        buildKeyFromData venv.toEnv d .approving := fun same =>
      of_decide_eq_true other ((sameKey_iff laws (refines.known w old) member _).mp same)
    rw [Function.update_of_ne differs, Function.update_of_ne (noList _ _),
      Function.update_of_ne (approving_ne_approved laws.noCollision (refines.known w old) member)]
    exact refines.stored w old
  · intro d' member'
    -- the record is gone, and no other request shares its key
    rw [update_key laws member member']
    split
    next same => simp [Queue.Waits, same]
    next differs =>
      rw [Function.update_of_ne (noList _ _),
        Function.update_of_ne (approving_ne_approved laws.noCollision member' member),
        refines.records d' member']
      constructor
      · rintro ⟨w, old, same⟩
        exact ⟨w, List.mem_filter.mpr ⟨old, decide_eq_true (same ▸ differs)⟩, same⟩
      · rintro ⟨w, kept, same⟩
        exact ⟨w, List.mem_of_mem_filter kept, same⟩
  · intro d' member'
    -- the new record is under the key of its own data
    rw [Function.update_of_ne (approving_ne_approved laws.noCollision member member').symm,
      Function.update_of_ne (noList _ _), update_key laws member member']
    split
    next same => simp [same]
    next differs => rw [refines.approved d' member', List.mem_cons, or_iff_right differs]
  · intro w waits
    exact refines.known w (List.mem_of_mem_filter waits)
  · exact queueKey_update (.inr ⟨d, member, .inl rfl⟩) _ (queueKey_update (.inl rfl) _
      (queueKey_update (.inr ⟨d, member, .inr rfl⟩) _ refines.keys))

private theorem Refines.addValid (member : d ∈ data) :
    Refines venv data ((addOneValidData venv d).run Db.handle db).2
      ⟨q.waiting, subject d :: q.approved⟩ := by
  have noList := buildKeyFromData_ne_list venv.toEnv
  rw [run_addOneValidData]
  split
  next already =>
    refine ⟨refines.list, refines.stored, refines.records, fun d' member' => ?_, refines.known,
      refines.keys⟩
    have approved := (refines.approved d member).mp already
    rw [refines.approved d' member', List.mem_cons]
    exact ⟨.inr, fun either => either.elim (fun same => same ▸ approved) id⟩
  next =>
    dsimp only
    refine ⟨?_, fun w waits => ?_, fun d' member' => ?_, fun d' member' => ?_, refines.known,
      queueKey_update (.inr ⟨d, member, .inr rfl⟩) _ refines.keys⟩
    · rw [HoldsList, Function.update_of_ne (noList _ _).symm]
      exact refines.list
    · rw [Function.update_of_ne
        (approving_ne_approved laws.noCollision (refines.known w waits) member)]
      exact refines.stored w waits
    · rw [Function.update_of_ne (approving_ne_approved laws.noCollision member' member)]
      exact refines.records d' member'
    · rw [update_key laws member member']
      split
      next same => simp [same]
      next differs => rw [refines.approved d' member', List.mem_cons, or_iff_right differs]

/-- A call does to the database what it does to the queue. -/
theorem Refines.step (distinct : (q.waiting.map subject).Nodup) {call : QueueCall}
    (member : call.data ∈ data) :
    Refines venv data ((call.program venv).run Db.handle db).2 (q.step call) := by
  have agrees (d : SendData) (known : d ∈ data) :
      (db (buildKeyFromData venv.toEnv d .approving)).isSome ↔
        buildKeyFromData venv.toEnv d .approving ∈
          q.waiting.map (buildKeyFromData venv.toEnv · .approving) := by
    rw [refines.records d known, refines.mem_keys_iff laws known]
  have reads := refines.reads laws distinct
  cases call with
  | addApprovingData d =>
    have listed : _ ↔ q.Waits d := refines.mem_keys_iff laws member
    have approved := refines.approved d member
    rw [QueueCall.program, run_addApprovingData refines.list reads d (agrees d member), Queue.step]
    by_cases fresh : subject d ∈ q.approved ∨ q.Waits d
    · rw [if_pos fresh, if_pos (fresh.imp approved.mpr listed.mpr)]
      exact refines
    · rw [if_neg fresh, if_neg fun known => fresh (known.imp approved.mp listed.mp)]
      exact refines.request laws member fresh
  | approveOneData d =>
    have listed : _ ↔ q.Waits d := refines.mem_keys_iff laws member
    rw [QueueCall.program, run_approveOneData refines.list reads d (agrees d member).mpr,
      Queue.step]
    by_cases waits : q.Waits d
    · rw [if_pos waits, if_pos (listed.mpr waits)]
      exact refines.approve laws member
    · rw [if_neg waits, if_neg fun known => waits (listed.mp known)]
      exact refines
  | addOneValidData d => exact refines.addValid laws member

end Refinement

theorem databaseAfter_append (venv : ValEnv) (calls : List QueueCall) (call : QueueCall) :
    databaseAfter venv (calls ++ [call]) =
      ((call.program venv).run Db.handle (databaseAfter venv calls)).2 := by
  simp [databaseAfter]

theorem databaseAfter_refines {data : List SendData} (laws : QueueLaws venv data)
    {calls : List QueueCall} (known : ∀ call ∈ calls, call.data ∈ data) :
    Refines venv data (databaseAfter venv calls) (Queue.run calls) := by
  induction calls using List.reverseRecOn with
  | nil =>
    refine ⟨.inl ⟨rfl, rfl⟩, ?_, ?_, ?_, ?_, ?_⟩ <;>
      simp [databaseAfter, Queue.run, Queue.Waits, Db.empty]
  | append_singleton calls call ih =>
    rw [databaseAfter_append, Queue.run_append]
    refine (ih fun other member => known other (List.mem_append_left _ member)).step laws
      (Queue.run_fair calls).distinct ?_
    exact known call (List.mem_append_right _ (List.mem_singleton_self _))

end SchnorrMpc
