import SchnorrMpc.Lib.Trace
import SchnorrMpc.Properties.ApprovalQueue

/-!
# Requests and approvals at the same time

Each call reads the list of keys, changes its copy and writes it back, while
the others do the same. The list keeps every request as long as nobody writes it
between a call's reading and its writing.
-/
namespace SchnorrMpc

open Lib DbM Prog

variable {value : Bytes} {keys : List Bytes} {venv : ValEnv} {calls : List QueueCall}
  {call : QueueCall} {op : DbOp} {after : Db}

abbrev DbEvent := Event DbAns QueueCall

/-- What a call remembers: that its data was approved already, the last answer when it asked for
the list, and that it has written the list. -/
structure ListUse where
  approved : Bool
  read : Option (Except Err Bytes)
  wrote : Bool

namespace QueueCall

def key (venv : ValEnv) (call : QueueCall) (status : Status) : Bytes :=
  buildKeyFromData venv.toEnv call.data status

def note (venv : ValEnv) (call : QueueCall) (use : ListUse) : (op : DbOp) → DbAns op → ListUse
  | .has key, .ok true =>
    if key = call.key venv .approved then { use with approved := true } else use
  | .get key, answer => if key = mpcApprovingKeys then { use with read := some answer } else use
  | .put key _, .ok () => if key = mpcApprovingKeys then { use with wrote := true } else use
  | _, _ => use

def Takes (venv : ValEnv) (answer : Except Err Bytes) (keys : List Bytes) : QueueCall → Prop
  | addApprovingData _ => readApprovingKeys venv answer = .done (.ok keys)
  | approveOneData _ => ∃ ret, answer = .ok ret ∧ venv.unmarshalKeys ret = .ok keys
  | addOneValidData _ => False

def edit (venv : ValEnv) (keys : List Bytes) : QueueCall → List Bytes
  | addApprovingData d => keys ++ [buildKeyFromData venv.toEnv d .approving]
  | approveOneData d => deleteInByteArray (buildKeyFromData venv.toEnv d .approving) keys
  | addOneValidData _ => keys

/-- A call writes its own records, and once the list it has made of what it has read. -/
def May (venv : ValEnv) (call : QueueCall) (use : ListUse) : DbOp → Prop
  | .put key value =>
    if key = mpcApprovingKeys then
      use.wrote = false ∧ ∃ answer keys, use.read = some answer ∧ call.Takes venv answer keys ∧
        value = venv.marshalKeys (call.edit venv keys)
    else key = call.key venv .approving ∨ key = call.key venv .approved ∧ call.request = none
  | .delete key => key = call.key venv .approving
  | _ => True

/-- Without an error a call has written the list, or has seen that it need not. -/
def Ends (venv : ValEnv) (call : QueueCall) (use : ListUse) (result : Go Unit) : Prop :=
  result = .ok () → match call with
    | addApprovingData _ => use.approved = true ∨ use.wrote = true ∨ ∃ answer keys,
        use.read = some answer ∧ call.Takes venv answer keys ∧ call.key venv .approving ∈ keys
    | approveOneData _ => use.wrote = true ∨ ∃ answer keys,
        use.read = some answer ∧ call.Takes venv answer keys ∧ call.key venv .approving ∉ keys
    | addOneValidData _ => True

end QueueCall

/-! ### What each call does -/

section Conforms

variable {venv : ValEnv} {call : QueueCall} {use : ListUse}

theorem QueueCall.ends_err (error : Err) : call.Ends venv use (.err error) := by
  intro returned
  cases returned

theorem conforms_unwrap_bind {α : Type} {answer : Except Err α} {next : α → DbM Unit}
    (continues : ∀ value, answer = .ok value →
      Conforms (call.note venv) (call.May venv) (call.Ends venv) use (next value)) :
    Conforms (call.note venv) (call.May venv) (call.Ends venv) use (unwrap answer >>= next) := by
  cases answer with
  | error error => exact QueueCall.ends_err error
  | ok value => exact continues value rfl

theorem conforms_addKeyValueToDB {key : Bytes} (may : call.May venv use (.put key value)) :
    Conforms (call.note venv) (call.May venv) (fun after result => result = .ok () →
      if key = mpcApprovingKeys then after.wrote = true else after = use) use
      (addKeyValueToDB key value) := by
  unfold addKeyValueToDB
  simp only [getDB_bind, put_bind, get_bind]
  refine ⟨trivial, fun answer => ?_⟩
  cases answer with
  | error error => exact fun returned => by cases returned
  | ok _ =>
    refine ⟨may, fun answer => ?_⟩
    cases answer with
    | error error => exact fun returned => by cases returned
    | ok _ =>
      refine ⟨trivial, fun answer => ?_⟩
      cases answer with
      | error error => exact fun returned => by cases returned
      | ok _ =>
        intro _
        by_cases list : key = mpcApprovingKeys
        · simp [QueueCall.note, list]
        · simp [QueueCall.note, list]

theorem readApprovingKeys_done (venv : ValEnv) (answer : Except Err Bytes) :
    ∃ outcome, readApprovingKeys venv answer = .done outcome := by
  unfold readApprovingKeys
  cases answer with
  | ok ret =>
    simp only
    split
    · cases venv.unmarshalKeys ret <;> exact ⟨_, rfl⟩
    · exact ⟨_, rfl⟩
  | error error =>
    simp only
    split <;> exact ⟨_, rfl⟩

theorem QueueCall.note_has (venv : ValEnv) (call : QueueCall) (use : ListUse) {key : Bytes}
    (answer : DbAns (.has key)) :
    (call.note venv use (.has key) answer).read = use.read ∧
      (call.note venv use (.has key) answer).wrote = use.wrote := by
  unfold QueueCall.note
  split
  · split <;> exact ⟨rfl, rfl⟩
  all_goals simp_all

/-- The key goes into the list that was read, unless it is there. -/
theorem conforms_listKey {d : SendData} {ret : Except Err Bytes} (read : use.read = some ret)
    (unwritten : use.wrote = false) (takes : readApprovingKeys venv ret = .done (.ok keys)) :
    Conforms (QueueCall.note venv (.addApprovingData d)) (QueueCall.May venv (.addApprovingData d))
      (QueueCall.Ends venv (.addApprovingData d)) use
      (if (!inByteArray (buildKeyFromData venv.toEnv d .approving) keys) = true then
        addKeyValueToDB mpcApprovingKeys
          (venv.marshalKeys (keys ++ [buildKeyFromData venv.toEnv d .approving]))
      else pure ()) := by
  split
  next =>
    have may : QueueCall.May venv (.addApprovingData d) use (.put mpcApprovingKeys
        (venv.marshalKeys (keys ++ [buildKeyFromData venv.toEnv d .approving]))) := by
      rw [QueueCall.May, if_pos rfl]
      exact ⟨unwritten, ret, keys, read, takes, rfl⟩
    refine (conforms_addKeyValueToDB may).weaken fun after result written returned => ?_
    exact .inr (.inl (by simpa using written returned))
  next listed =>
    intro _
    refine .inr (.inr ⟨ret, keys, read, takes, ?_⟩)
    simpa [inByteArray, QueueCall.key, QueueCall.data] using listed

theorem conforms_addApprovingData (venv : ValEnv) (d : SendData) :
    Conforms (QueueCall.note venv (.addApprovingData d)) (QueueCall.May venv (.addApprovingData d))
      (QueueCall.Ends venv (.addApprovingData d)) ⟨false, none, false⟩
      (addApprovingData venv d) := by
  have noList := buildKeyFromData_ne_list venv.toEnv d .approving
  unfold addApprovingData
  simp only [getDB_bind, has_bind, get_bind]
  refine ⟨trivial, fun answer => conforms_unwrap_bind fun _ _ => ?_⟩
  refine ⟨trivial, fun answer => conforms_unwrap_bind fun isExist known => ?_⟩
  subst known
  cases isExist with
  | true =>
    -- approved before: nothing is written
    intro _
    exact .inl (by simp [QueueCall.note, QueueCall.key, QueueCall.data])
  | false =>
    simp only [Bool.false_eq_true, if_false]
    refine ⟨trivial, fun ret => ?_⟩
    obtain ⟨outcome, reads⟩ := readApprovingKeys_done venv ret
    simp only [reads]
    cases outcome with
    | err error => exact QueueCall.ends_err error
    | panic => exact fun returned => by cases returned
    | ok keys =>
      -- the list of the keys as it was read
      rw [done_ok_bind]
      refine ⟨trivial, fun answer => conforms_unwrap_bind fun exist _ => ?_⟩
      generalize afterRead : QueueCall.note venv (.addApprovingData d) _ (.get mpcApprovingKeys) ret
        = use
      have read : use.read = some ret ∧ use.wrote = false := by
        rw [← afterRead]
        simp [QueueCall.note]
      obtain ⟨sameRead, sameWrote⟩ := QueueCall.note_has venv (.addApprovingData d) use answer
      have list := conforms_listKey (d := d) (sameRead.trans read.1) (sameWrote.trans read.2) reads
      split
      next both =>
        intro _
        refine .inr (.inr ⟨ret, keys, sameRead.trans read.1, reads, ?_⟩)
        simp only [Bool.and_eq_true, inByteArray] at both
        simpa [QueueCall.key, QueueCall.data] using both.2
      next =>
        by_cases absent : (!exist) = true
        · rw [if_pos absent]
          -- the record goes under a key of its own, then the list is written
          have may : QueueCall.May venv (.addApprovingData d)
              (QueueCall.note venv (.addApprovingData d) use _ answer)
              (.put (buildKeyFromData venv.toEnv d .approving) (venv.marshalData d)) := by
            rw [QueueCall.May, if_neg noList]
            exact .inl rfl
          refine .bind (conforms_addKeyValueToDB may) ?_ ?_ ?_
          · intro after _ kept
            have same := kept rfl
            rw [if_neg noList] at same
            rw [same]
            exact list
          · exact fun _ error _ => QueueCall.ends_err error
          · exact fun _ _ returned => by cases returned
        · rw [if_neg absent]
          exact list

theorem conforms_approveOneData (venv : ValEnv) (d : SendData) :
    Conforms (QueueCall.note venv (.approveOneData d)) (QueueCall.May venv (.approveOneData d))
      (QueueCall.Ends venv (.approveOneData d)) ⟨false, none, false⟩ (approveOneData venv d) := by
  have noList := buildKeyFromData_ne_list venv.toEnv d .approved
  unfold approveOneData
  simp only [getDB_bind, has_bind, get_bind, delete_bind]
  refine ⟨trivial, fun answer => conforms_unwrap_bind fun _ _ => ?_⟩
  refine ⟨trivial, fun answer => conforms_unwrap_bind fun ret got => ?_⟩
  refine conforms_unwrap_bind fun keys parsed => ?_
  generalize afterRead : QueueCall.note venv (.approveOneData d) _ (.get mpcApprovingKeys) answer
    = use
  have read : use.read = some answer ∧ use.wrote = false := by
    rw [← afterRead]
    simp [QueueCall.note]
  have takes : QueueCall.Takes venv answer keys (.approveOneData d) := ⟨ret, got, parsed⟩
  split
  next unlisted =>
    intro _
    refine .inr ⟨answer, keys, read.1, takes, ?_⟩
    simpa [inByteArray, QueueCall.key, QueueCall.data] using unlisted
  next =>
    refine ⟨trivial, fun has => ?_⟩
    obtain ⟨sameRead, sameWrote⟩ := QueueCall.note_has venv (.approveOneData d) use has
    -- a request that is gone, or could not be looked up, ends with an error
    rcases has with error | _ | _
    · exact QueueCall.ends_err _
    · exact QueueCall.ends_err _
    · refine .bind (conforms_addKeyValueToDB ?_) ?_ ?_ ?_
      · rw [QueueCall.May, if_neg noList]
        exact .inr ⟨rfl, rfl⟩
      · intro after _ kept
        have same := kept rfl
        rw [if_neg noList] at same
        rw [same]
        -- first the approved record, then the list without the key, last the removal of the old one
        refine .bind (conforms_addKeyValueToDB ?_) ?_ ?_ ?_
        · rw [QueueCall.May, if_pos rfl]
          exact ⟨sameWrote.trans read.2, answer, keys, sameRead.trans read.1, takes, rfl⟩
        · intro after _ written
          refine ⟨rfl, fun deleted => ?_⟩
          have wrote : after.wrote = true := by simpa using written rfl
          cases deleted with
          | error error => exact QueueCall.ends_err error
          | ok _ => exact fun _ => .inl wrote
        · exact fun _ error _ => QueueCall.ends_err error
        · exact fun _ _ returned => by cases returned
      · exact fun _ error _ => QueueCall.ends_err error
      · exact fun _ _ returned => by cases returned

theorem conforms_addOneValidData (venv : ValEnv) (d : SendData) :
    Conforms (QueueCall.note venv (.addOneValidData d)) (QueueCall.May venv (.addOneValidData d))
      (QueueCall.Ends venv (.addOneValidData d)) ⟨false, none, false⟩ (addOneValidData venv d) := by
  unfold addOneValidData
  simp only [getDB_bind, has_bind]
  refine ⟨trivial, fun answer => conforms_unwrap_bind fun _ _ => ?_⟩
  refine ⟨trivial, fun has => ?_⟩
  rcases has with error | _ | _
  · exact QueueCall.ends_err _
  · refine (conforms_addKeyValueToDB ?_).weaken fun _ _ _ _ => trivial
    rw [QueueCall.May, if_neg (buildKeyFromData_ne_list venv.toEnv d .approved)]
    exact .inr ⟨rfl, rfl⟩
  · exact QueueCall.ends_err _

theorem QueueCall.conforms (venv : ValEnv) (call : QueueCall) :
    Conforms (call.note venv) (call.May venv) (call.Ends venv) ⟨false, none, false⟩
      (call.program venv) := by
  cases call with
  | addApprovingData d => exact conforms_addApprovingData venv d
  | approveOneData d => exact conforms_approveOneData venv d
  | addOneValidData d => exact conforms_addOneValidData venv d

end Conforms

/-! ### The list in a run -/

def listUse (venv : ValEnv) (trace : List DbEvent) (call : QueueCall) : ListUse :=
  Threads.remember (QueueCall.note venv) ⟨false, none, false⟩ trace call

def readersAfter (readers : List QueueCall) (call : QueueCall) :
    (op : DbOp) → DbAns op → List QueueCall
  | .get key, _ => if key = mpcApprovingKeys then call :: readers else readers
  | .put key _, .ok () => if key = mpcApprovingKeys then [] else readers
  | _, _ => readers

/-- The calls that have read the list since it was written last. -/
def upToDate (trace : List DbEvent) : List QueueCall :=
  trace.foldl (fun readers event => readersAfter readers event.call event.op event.answer) []

theorem upToDate_append (trace : List DbEvent) (event : DbEvent) :
    upToDate (trace ++ [event]) =
      readersAfter (upToDate trace) event.call event.op event.answer := by
  simp [upToDate]

/-- Whoever writes the list has read it as it is: nobody has written it in between. -/
def Undisturbed (trace : List DbEvent) : Prop :=
  ∀ before call value answer after,
    trace = before ++ ⟨call, .put mpcApprovingKeys value, answer⟩ :: after → call ∈ upToDate before

theorem Undisturbed.init {trace : List DbEvent} {event : DbEvent}
    (undisturbed : Undisturbed (trace ++ [event])) : Undisturbed trace := by
  intro before call value answer after split
  exact undisturbed before call value answer (after ++ [event]) (by rw [split]; simp)

/-- The same, checked event by event. -/
def undisturbedFrom : List QueueCall → List DbEvent → Bool
  | _, [] => true
  | readers, event :: rest =>
    (match event.op with
      | .put key _ => key ≠ mpcApprovingKeys || readers.contains event.call
      | _ => true) &&
    undisturbedFrom (readersAfter readers event.call event.op event.answer) rest

theorem undisturbed_of_check {trace : List DbEvent} (checked : undisturbedFrom [] trace = true) :
    Undisturbed trace := by
  have from_ (readers : List QueueCall) (trace : List DbEvent)
      (checked : undisturbedFrom readers trace = true) (before : List DbEvent) (call : QueueCall)
      (value : Bytes) (answer : Except Err Unit) (after : List DbEvent)
      (split : trace = before ++ ⟨call, .put mpcApprovingKeys value, answer⟩ :: after) :
      call ∈ before.foldl
        (fun readers event => readersAfter readers event.call event.op event.answer) readers := by
    induction before generalizing readers trace with
    | nil =>
      subst split
      simpa [undisturbedFrom] using (Bool.and_eq_true_iff.mp checked).1
    | cons event before ih =>
      subst split
      exact ih _ _ (Bool.and_eq_true_iff.mp checked).2 rfl
  exact fun before call value answer after split =>
    from_ [] trace checked before call value answer after split

/-- The two keys of every call, all of them different. -/
def DistinctKeys (venv : ValEnv) (calls : List QueueCall) : Prop :=
  (calls.flatMap fun call => [call.key venv .approving, call.key venv .approved]).Nodup

theorem DistinctKeys.eq (distinct : DistinctKeys venv calls) {call' : QueueCall}
    {status status' : Status} (member : call ∈ calls) (member' : call' ∈ calls)
    (same : call.key venv status = call'.key venv status') : call = call' ∧ status = status' := by
  obtain ⟨own, apart⟩ := List.nodup_flatMap.mp distinct
  have inKeys (c : QueueCall) (s : Status) :
      c.key venv s ∈ [c.key venv .approving, c.key venv .approved] := by
    cases s <;> simp
  by_cases equal : call = call'
  · subst equal
    refine ⟨rfl, ?_⟩
    have differ : call.key venv .approving ≠ call.key venv .approved := by
      simpa using own call member
    cases status <;> cases status'
    · rfl
    · exact absurd same differ
    · exact absurd same.symm differ
    · rfl
  · have symmetric : Std.Symm (Function.onFun List.Disjoint fun c : QueueCall =>
        [c.key venv .approving, c.key venv .approved]) :=
      ⟨fun _ _ disjoint => List.Disjoint.symm disjoint⟩
    have disjoint := apart.forall member member' equal
    exact absurd (same ▸ inKeys call' status') (disjoint (inKeys call status))

theorem DistinctKeys.nodup (distinct : DistinctKeys venv calls) : calls.Nodup := by
  obtain ⟨-, apart⟩ := List.nodup_flatMap.mp distinct
  refine apart.imp fun disjoint same => ?_
  subst same
  exact disjoint List.mem_cons_self List.mem_cons_self

/-- The keys that should be in the list: the old ones that nobody has approved, and the new ones. -/
def Expected (venv : ValEnv) (calls : List QueueCall) (keys₀ : List Bytes)
    (trace : List DbEvent) (key : Bytes) : Prop :=
  (key ∈ keys₀ ∧ ∀ d, .approveOneData d ∈ calls →
      (listUse venv trace (.approveOneData d)).wrote = true →
      key ≠ buildKeyFromData venv.toEnv d .approving) ∨
    ∃ d, .addApprovingData d ∈ calls ∧ (listUse venv trace (.addApprovingData d)).wrote = true ∧
      key = buildKeyFromData venv.toEnv d .approving

def Answers (db : Db) (answer : Except Err Bytes) : Prop :=
  (∀ text, answer = .ok text → db mpcApprovingKeys = some text) ∧
    (answer = .error errNotFound → db mpcApprovingKeys = none)

/-- The list is as it should be, the calls that are up to date have read it as it is, and what any
other call has read was right for its own key. -/
structure ListKept (venv : ValEnv) (calls : List QueueCall) (keys₀ : List Bytes)
    (trace : List DbEvent) (db : Db) : Prop where
  list : ∃ keys, HoldsList venv db keys ∧ ∀ key, key ∈ keys ↔ Expected venv calls keys₀ trace key
  fresh : ∀ call ∈ upToDate trace, ∃ answer,
    (listUse venv trace call).read = some answer ∧ Answers db answer
  own : ∀ call ∈ calls, (listUse venv trace call).wrote = false → ∀ answer keys,
    (listUse venv trace call).read = some answer → call.Takes venv answer keys →
    (call.key venv .approving ∈ keys ↔ call.key venv .approving ∈ keys₀)

section Kept

variable {venv : ValEnv} {calls : List QueueCall} {keys₀ : List Bytes} {trace : List DbEvent}
  {db : Db}

/-- What a call takes the list for is what it was when the call asked. -/
theorem QueueCall.Takes.eq (reads : ∀ keys, ReadsList venv keys) {keys' : List Bytes}
    (holds : HoldsList venv db keys) {answer : Except Err Bytes} (answers : Answers db answer)
    (takes : call.Takes venv answer keys') : keys' = keys := by
  have parsed (text : Bytes) (isText : answer = .ok text) : text.length ≠ 0 ∧
      venv.unmarshalKeys text = .ok keys := by
    have stored := answers.1 text isText
    rcases holds with ⟨missing, -⟩ | present
    · rw [missing] at stored
      cases stored
    · obtain rfl : venv.marshalKeys keys = text := Option.some.inj (present.symm.trans stored)
      exact ⟨(reads keys).nonempty, (reads keys).unmarshal⟩
  cases call with
  | addOneValidData d => exact absurd takes id
  | approveOneData d =>
    obtain ⟨ret, isRet, isKeys⟩ := takes
    exact Except.ok.inj (isKeys.symm.trans (parsed ret isRet).2)
  | addApprovingData d =>
    unfold QueueCall.Takes readApprovingKeys at takes
    cases answer with
    | ok ret =>
      obtain ⟨nonempty, isKeys⟩ := parsed ret rfl
      simp only [if_pos nonempty, isKeys, unwrap_ok] at takes
      cases takes
      rfl
    | error error =>
      simp only at takes
      split at takes
      · cases takes
      next isMissing =>
        have absent := answers.2 (congrArg Except.error (not_not.mp isMissing))
        cases takes
        rcases holds with ⟨-, empty⟩ | present
        · exact empty.symm
        · rw [absent] at present
          cases present

theorem expected_own (distinct : DistinctKeys venv calls) (member : call ∈ calls)
    (unwritten : (listUse venv trace call).wrote = false) :
    Expected venv calls keys₀ trace (call.key venv .approving) ↔
      call.key venv .approving ∈ keys₀ := by
  have notOwn (call' : QueueCall) (member' : call' ∈ calls)
      (wrote : (listUse venv trace call').wrote = true) :
      call.key venv .approving ≠ call'.key venv .approving := by
    intro same
    obtain ⟨rfl, -⟩ := distinct.eq member member' same
    rw [unwritten] at wrote
    cases wrote
  constructor
  · rintro (⟨old, -⟩ | ⟨d, added, wrote, same⟩)
    · exact old
    · exact absurd same (notOwn _ added wrote)
  · intro old
    exact .inl ⟨old, fun d approved wrote => notOwn _ approved wrote⟩

theorem mem_deleteInByteArray (data key : Bytes) (keys : List Bytes) :
    key ∈ deleteInByteArray data keys ↔ key ∈ keys ∧ key ≠ data := by
  unfold deleteInByteArray
  split
  next absent =>
    have unlisted : data ∉ keys := by simpa [inByteArray] using absent
    exact ⟨fun member => ⟨member, ne_of_mem_of_not_mem member unlisted⟩, And.left⟩
  next => simp

/-- The list that a call writes is the expected one once it has written it. -/
theorem mem_edit_iff (distinct : DistinctKeys venv calls) {trace' : List DbEvent}
    (member : call ∈ calls)
    (wrote : ∀ call', (listUse venv trace' call').wrote = true ↔ call' = call ∨
      (listUse venv trace call').wrote = true)
    {answer : Except Err Bytes} (takes : call.Takes venv answer keys) {key : Bytes}
    (exact : key ∈ keys ↔ Expected venv calls keys₀ trace key) :
    key ∈ call.edit venv keys ↔ Expected venv calls keys₀ trace' key := by
  cases call with
  | addOneValidData d => exact absurd takes id
  | addApprovingData d =>
    have others : Expected venv calls keys₀ trace' key ↔ Expected venv calls keys₀ trace key ∨
        key = buildKeyFromData venv.toEnv d .approving := by
      simp only [Expected, wrote, reduceCtorEq, false_or, or_assoc]
      refine or_congr_right ⟨?_, ?_⟩
      -- the call itself, or one that had written before
      · rintro ⟨d', added, same | old, isKey⟩
        · cases same
          exact .inr isKey
        · exact .inl ⟨d', added, old, isKey⟩
      · rintro (⟨d', added, old, isKey⟩ | isKey)
        · exact ⟨d', added, .inr old, isKey⟩
        · exact ⟨d, member, .inl rfl, isKey⟩
    rw [others, QueueCall.edit, List.mem_append, List.mem_singleton, exact]
  | approveOneData d =>
    rw [QueueCall.edit, mem_deleteInByteArray, exact]
    simp only [Expected, wrote, reduceCtorEq, false_or, or_and_right]
    refine or_congr ⟨?_, ?_⟩ ⟨And.left, fun added => ⟨added, ?_⟩⟩
    · rintro ⟨⟨old, kept⟩, other⟩
      refine ⟨old, fun d' approved => ?_⟩
      rintro (same | written)
      · cases same
        exact other
      · exact kept d' approved written
    · rintro ⟨old, kept⟩
      exact ⟨⟨old, fun d' approved written => kept d' approved (.inr written)⟩,
        kept d member (.inl rfl)⟩
    -- what was added has another key than what is approved
    · obtain ⟨d', added, -, rfl⟩ := added
      intro same
      obtain ⟨equal, -⟩ := distinct.eq added member same
      cases equal

/-- An operation that neither reads nor writes the list keeps all of it. -/
theorem ListKept.frame {trace' : List DbEvent} {db' : Db}
    (kept : ListKept venv calls keys₀ trace db)
    (sameUse : ∀ call, (listUse venv trace' call).read = (listUse venv trace call).read ∧
      (listUse venv trace' call).wrote = (listUse venv trace call).wrote)
    (sameReaders : upToDate trace' = upToDate trace)
    (sameList : db' mpcApprovingKeys = db mpcApprovingKeys) :
    ListKept venv calls keys₀ trace' db' := by
  obtain ⟨⟨keys, holds, exact⟩, fresh, own⟩ := kept
  refine ⟨⟨keys, ?_, fun key => ?_⟩, fun call reader => ?_, fun call member => ?_⟩
  · rwa [HoldsList, sameList]
  · rw [exact key]
    simp only [Expected, sameUse]
  · rw [sameReaders] at reader
    obtain ⟨answer, read, answers⟩ := fresh call reader
    refine ⟨answer, (sameUse call).1.trans read, ?_⟩
    rwa [Answers, sameList]
  · rw [(sameUse call).1, (sameUse call).2]
    exact own call member

theorem listUse_own (venv : ValEnv) (trace : List DbEvent) (call : QueueCall) (op : DbOp)
    (answer : DbAns op) : listUse venv (trace ++ [⟨call, op, answer⟩]) call =
      call.note venv (listUse venv trace call) op answer :=
  Threads.remember_own _ _ _ _ _ _

theorem listUse_other (venv : ValEnv) (trace : List DbEvent) {event : DbEvent}
    (other : event.call ≠ call) : listUse venv (trace ++ [event]) call = listUse venv trace call :=
  Threads.remember_other _ _ _ other

/-- An event whose call keeps what it remembers of the list keeps it for all calls. -/
theorem listUse_frame (venv : ValEnv) (trace : List DbEvent) {answer : DbAns op}
    (read : (call.note venv (listUse venv trace call) op answer).read =
      (listUse venv trace call).read)
    (wrote : (call.note venv (listUse venv trace call) op answer).wrote =
      (listUse venv trace call).wrote)
    (call' : QueueCall) :
    (listUse venv (trace ++ [⟨call, op, answer⟩]) call').read = (listUse venv trace call').read ∧
      (listUse venv (trace ++ [⟨call, op, answer⟩]) call').wrote =
        (listUse venv trace call').wrote := by
  by_cases same : call = call'
  · subst same
    rw [listUse_own]
    exact ⟨read, wrote⟩
  · rw [listUse_other venv trace same]
    exact ⟨rfl, rfl⟩

variable (distinct : DistinctKeys venv calls) (reads : ∀ keys, ReadsList venv keys)

include distinct reads

section

variable (kept : ListKept venv calls keys₀ trace db)

include kept

/-- Reading the list brings a call up to date. -/
theorem ListKept.readList {answer : Except Err Bytes} (answers : Answers db answer) :
    ListKept venv calls keys₀ (trace ++ [⟨call, .get mpcApprovingKeys, answer⟩]) db := by
  have wrote (call' : QueueCall) :
      (listUse venv (trace ++ [⟨call, .get mpcApprovingKeys, answer⟩]) call').wrote =
        (listUse venv trace call').wrote := by
    by_cases same : call = call'
    · subst same
      rw [listUse_own]
      simp [QueueCall.note]
    · rw [listUse_other venv trace same]
  have ownRead : (listUse venv (trace ++ [⟨call, .get mpcApprovingKeys, answer⟩]) call).read =
      some answer := by
    rw [listUse_own]
    simp [QueueCall.note]
  obtain ⟨⟨keys, holds, exact⟩, fresh, own⟩ := kept
  refine ⟨⟨keys, holds, fun key => ?_⟩, fun call' reader => ?_, fun call' member unwritten => ?_⟩
  · rw [exact key]
    simp only [Expected, wrote]
  · by_cases same : call = call'
    · subst same
      exact ⟨answer, ownRead, answers⟩
    · rw [upToDate_append] at reader
      simp only [readersAfter, if_true, List.mem_cons, Ne.symm same, false_or] at reader
      rw [listUse_other venv trace same]
      exact fresh call' reader
  · rw [wrote] at unwritten
    by_cases same : call = call'
    · subst same
      intro answer' keys' read takes
      obtain rfl := Option.some.inj (ownRead.symm.trans read)
      rw [takes.eq reads holds answers, exact]
      exact expected_own distinct member unwritten
    · rw [listUse_other venv trace same]
      exact own call' member unwritten

/-- A call that is up to date writes the list as it should be with its own change. -/
theorem ListKept.writeList (member : call ∈ calls) (fresh : call ∈ upToDate trace)
    (may : call.May venv (listUse venv trace call) (.put mpcApprovingKeys value)) :
    ListKept venv calls keys₀ (trace ++ [⟨call, .put mpcApprovingKeys value, .ok ()⟩])
      (Function.update db mpcApprovingKeys (some value)) := by
  rw [QueueCall.May, if_pos rfl] at may
  obtain ⟨unwritten, answer, keys', read, takes, rfl⟩ := may
  obtain ⟨answer', read', answers⟩ := kept.fresh call fresh
  obtain rfl := Option.some.inj (read.symm.trans read')
  obtain ⟨⟨keys, holds, exact⟩, -, own⟩ := kept
  obtain rfl := takes.eq reads holds answers
  have noted : listUse venv (trace ++ [⟨call, .put mpcApprovingKeys
      (venv.marshalKeys (call.edit venv keys')), .ok ()⟩]) call =
        { listUse venv trace call with wrote := true } := by
    rw [listUse_own]
    simp [QueueCall.note]
  refine ⟨⟨call.edit venv keys', .inr (Function.update_self ..), fun key => ?_⟩, ?_, ?_⟩
  · refine mem_edit_iff distinct member (fun call' => ?_) takes (exact key)
    by_cases same : call = call'
    · subst same
      simp [noted]
    · rw [listUse_other venv trace same]
      simp [Ne.symm same]
  · intro call' reader
    rw [upToDate_append] at reader
    simp [readersAfter] at reader
  · intro call' member' unwritten'
    by_cases same : call = call'
    · subst same
      rw [noted] at unwritten'
      cases unwritten'
    · rw [listUse_other venv trace same] at unwritten' ⊢
      exact own call' member' unwritten'

/-- Every operation of a call keeps the list, if the list is only written by calls that are up to
date. -/
theorem ListKept.step {answer : DbAns op} (member : call ∈ calls)
    (may : call.May venv (listUse venv trace call) op) (taken : Db.Step db op answer after)
    (undisturbed : Undisturbed (trace ++ [⟨call, op, answer⟩])) :
    ListKept venv calls keys₀ (trace ++ [⟨call, op, answer⟩]) after := by
  have readers := upToDate_append trace ⟨call, op, answer⟩
  cases op with
  | getDB =>
    rw [Db.step_getDB taken]
    exact kept.frame (listUse_frame venv trace rfl rfl) readers rfl
  | has key =>
    rw [(Db.step_has taken).1]
    obtain ⟨read, wrote⟩ := QueueCall.note_has venv call (listUse venv trace call) answer
    exact kept.frame (listUse_frame venv trace read wrote) readers rfl
  | get key =>
    obtain ⟨same, found, missing⟩ := Db.step_get taken
    rw [same]
    by_cases list : key = mpcApprovingKeys
    · subst list
      exact kept.readList distinct reads ⟨found, missing⟩
    · refine kept.frame (listUse_frame venv trace ?_ ?_) (readers.trans ?_) rfl
      · simp [QueueCall.note, list]
      · simp [QueueCall.note, list]
      · simp [readersAfter, list]
  | put key value =>
    -- a failed write leaves the database as it was
    rcases Db.step_put taken with ⟨rfl, rfl⟩ | ⟨rfl, error, rfl⟩
    · by_cases list : key = mpcApprovingKeys
      · subst list
        exact kept.writeList distinct reads member (undisturbed trace call value _ [] rfl) may
      · refine kept.frame (listUse_frame venv trace ?_ ?_) (readers.trans ?_)
          (Function.update_of_ne (Ne.symm list) ..)
        · simp [QueueCall.note, list]
        · simp [QueueCall.note, list]
        · simp [readersAfter, list]
    · exact kept.frame (listUse_frame venv trace rfl rfl) readers rfl
  | delete key =>
    -- only records are removed, and the list is none
    have noList : key ≠ mpcApprovingKeys := by
      rw [show key = call.key venv .approving from may]
      exact buildKeyFromData_ne_list _ _ _
    refine kept.frame (listUse_frame venv trace rfl rfl) readers ?_
    rcases Db.step_delete taken with rfl | rfl
    · exact Function.update_of_ne noList.symm ..
    · rfl

end

end Kept

/-! ### The approved records of requests -/

/-- The record under the approved key of a request is the one that was there at first, and a
request that has seen one has seen that. -/
structure ApprovedKept (venv : ValEnv) (calls : List QueueCall) (db₀ : Db) (trace : List DbEvent)
    (db : Db) : Prop where
  records : ∀ d, .addApprovingData d ∈ calls →
    db (buildKeyFromData venv.toEnv d .approved) = db₀ (buildKeyFromData venv.toEnv d .approved)
  seen : ∀ d, .addApprovingData d ∈ calls →
    (listUse venv trace (.addApprovingData d)).approved = true →
    (db₀ (buildKeyFromData venv.toEnv d .approved)).isSome

section Approved

variable {venv : ValEnv} {calls : List QueueCall} {db₀ db : Db} {trace : List DbEvent}

theorem QueueCall.note_approved {use : ListUse} {answer : DbAns op}
    (noted : (call.note venv use op answer).approved = true) (unseen : use.approved ≠ true) :
    ∃ found : op = .has (call.key venv .approved), found ▸ answer = .ok true := by
  unfold QueueCall.note at noted
  split at noted
  next key =>
    split at noted
    next same =>
      subst same
      exact ⟨rfl, rfl⟩
    next => exact absurd noted unseen
  next =>
    split at noted <;> exact absurd noted unseen
  next =>
    split at noted <;> exact absurd noted unseen
  next => exact absurd noted unseen

theorem ApprovedKept.step (distinct : DistinctKeys venv calls)
    (kept : ApprovedKept venv calls db₀ trace db) {answer : DbAns op} (member : call ∈ calls)
    (may : call.May venv (listUse venv trace call) op) (taken : Db.Step db op answer after) :
    ApprovedKept venv calls db₀ (trace ++ [⟨call, op, answer⟩]) after := by
  have unchanged (d : SendData) (added : .addApprovingData d ∈ calls) :
      after (buildKeyFromData venv.toEnv d .approved) =
        db (buildKeyFromData venv.toEnv d .approved) := by
    cases op with
    | getDB => rw [Db.step_getDB taken]
    | has key => rw [(Db.step_has taken).1]
    | get key => rw [(Db.step_get taken).1]
    -- approved records are written by approvals of the same data only, and then none is added
    | put key value =>
      have other : buildKeyFromData venv.toEnv d .approved ≠ key := by
        rintro rfl
        rw [QueueCall.May, if_neg (buildKeyFromData_ne_list _ _ _)] at may
        rcases may with same | ⟨same, noRequest⟩
        · cases (distinct.eq added member same).2
        · obtain ⟨rfl, -⟩ := distinct.eq added member same
          cases noRequest
      rcases Db.step_put taken with ⟨-, rfl⟩ | ⟨rfl, -⟩
      · rw [Function.update_of_ne other]
      · rfl
    | delete key =>
      have other : buildKeyFromData venv.toEnv d .approved ≠ key := by
        rintro rfl
        cases (distinct.eq added member may).2
      rcases Db.step_delete taken with rfl | rfl
      · rw [Function.update_of_ne other]
      · rfl
  refine ⟨fun d added => (unchanged d added).trans (kept.records d added), fun d added seen => ?_⟩
  by_cases same : call = .addApprovingData d
  · subst same
    rw [listUse_own] at seen
    by_cases before : (listUse venv trace (.addApprovingData d)).approved = true
    · exact kept.seen d added before
    · obtain ⟨rfl, found⟩ := QueueCall.note_approved seen before
      rw [← kept.records d added]
      exact ((Db.step_has taken).2 true found).symm
  · have other : (⟨call, op, answer⟩ : DbEvent).call ≠ .addApprovingData d := same
    rw [listUse_other venv trace other] at seen
    exact kept.seen d added seen

end Approved

/-! ### No request is lost or revived -/

/-- The keys of the requests that were added and are not approved are in the list, those of the
approved ones are not, and the requests that waited before are kept. -/
structure RequestsKept (venv : ValEnv) (calls : List QueueCall) (before after : Db)
    (keys₀ keys : List Bytes) : Prop where
  start : ApprovingKeys venv before keys₀
  list : ApprovingKeys venv after keys
  added : ∀ d, .addApprovingData d ∈ calls →
    before (buildKeyFromData venv.toEnv d .approved) = none →
    buildKeyFromData venv.toEnv d .approving ∈ keys
  approved : ∀ d, .approveOneData d ∈ calls → buildKeyFromData venv.toEnv d .approving ∉ keys
  waiting : ∀ key ∈ keys₀, (∀ d, .approveOneData d ∈ calls →
    key ≠ buildKeyFromData venv.toEnv d .approving) → key ∈ keys

/-- In every run of calls on data with different keys in which the list is only written by calls
that have read it as it is, no request is lost or revived once all calls have returned nil. -/
theorem undisturbed_requests_kept (venv : ValEnv) (reads : ∀ keys, ReadsList venv keys)
    (db : Db) (keys₀ : List Bytes) (holds : HoldsList venv db keys₀) (trace : List DbEvent)
    (t : Threads DbAns Err Unit Db QueueCall)
    (runs : Threads.Runs Db.Step (QueueCall.program venv) db trace t)
    (distinct : DistinctKeys venv t.calls.started) (undisturbed : Undisturbed trace)
    (returned : ∀ thread ∈ t.threads, thread.2 = .done (.ok ())) :
    ∃ keys, RequestsKept venv t.calls.started db t.state keys₀ keys := by
  have conforms (call : QueueCall) (_ : call ∈ t.calls.started) := call.conforms venv
  have approvedKept : ApprovedKept venv t.calls.started db trace t.state := by
    refine runs.invariant distinct.nodup (fun _ started => started) conforms
      ⟨fun _ _ => rfl, fun _ _ seen => by cases seen⟩ ?_
    intro trace u call op answer u' member may kept taken
    exact kept.step distinct member may taken
  let Inv (trace : List DbEvent) (u : Db) : Prop :=
    Undisturbed trace → ListKept venv t.calls.started keys₀ trace u
  have listKept : Inv trace t.state := by
    refine runs.invariant distinct.nodup (fun _ started => started) conforms ?_ ?_
    · intro _
      refine ⟨⟨keys₀, holds, fun key => ?_⟩, ?_, ?_⟩
      · simp [Expected, listUse]
      · simp [upToDate]
      · simp [listUse]
    · intro trace u call op answer u' member may kept taken undisturbed
      exact (kept undisturbed.init).step distinct reads member may taken undisturbed
  have kept := listKept undisturbed
  obtain ⟨keys, holds', exact⟩ := kept.list
  -- Every call has ended, so what it remembers is known.
  have ends (call : QueueCall) (started : call ∈ t.calls.started) :
      call.Ends venv (listUse venv trace call) (.ok ()) := by
    rw [← runs.threads_calls] at started
    obtain ⟨thread, member, rfl⟩ := List.mem_map.mp started
    have left := runs.conforms distinct.nodup conforms thread member
    rw [returned thread member] at left
    exact left
  -- a call returns nil after writing the list, or having seen that there is nothing to do
  refine ⟨keys, .of_holdsList holds (reads _), .of_holdsList holds' (reads _), ?_, ?_, ?_⟩
  · intro d added unapproved
    rw [exact]
    rcases ends _ added rfl with seen | wrote | ⟨answer, taken, read, takes, inKeys⟩
    · have present := approvedKept.seen d added seen
      rw [unapproved] at present
      cases present
    · exact .inr ⟨d, added, wrote, rfl⟩
    · by_cases wrote : (listUse venv trace (.addApprovingData d)).wrote = true
      · exact .inr ⟨d, added, wrote, rfl⟩
      · have unwritten := Bool.eq_false_iff.mpr wrote
        have old := (kept.own _ added unwritten answer taken read takes).mp inKeys
        exact (expected_own distinct added unwritten).mpr old
  · intro d approved
    rw [exact]
    have removed : (listUse venv trace (.approveOneData d)).wrote = true →
        ¬Expected venv t.calls.started keys₀ trace (buildKeyFromData venv.toEnv d .approving) := by
      rintro wrote (⟨-, kept⟩ | ⟨d', added, -, same⟩)
      · exact kept d approved wrote rfl
      · cases (distinct.eq approved added same).1
    rcases ends _ approved rfl with wrote | ⟨answer, taken, read, takes, notIn⟩
    · exact removed wrote
    · by_cases wrote : (listUse venv trace (.approveOneData d)).wrote = true
      · exact removed wrote
      · have unwritten := Bool.eq_false_iff.mpr wrote
        intro expected
        have old := (expected_own distinct approved unwritten).mp expected
        exact notIn ((kept.own _ approved unwritten answer taken read takes).mpr old)
  · intro key old unapproved
    rw [exact]
    exact .inl ⟨old, fun d approved _ => unapproved d approved⟩

/-! ### Two requests at once -/

def raceCalls : List QueueCall := [.addApprovingData sampleData, .addApprovingData otherData]

private theorem raceCalls_distinct : DistinctKeys queueEnv raceCalls := by
  unfold DistinctKeys
  decide +kernel

/-- Both requests are started, and then the places take turns. -/
def raceTurns (places : List Nat) : List (Threads.Turn QueueCall) :=
  raceCalls.map .start ++ places.map .perform

def raceRun (places : List Nat) : List DbEvent × Threads DbAns Err Unit Db QueueCall :=
  Threads.follow Db.handle (QueueCall.program queueEnv) Db.empty (raceTurns places)

private theorem raceRun_runs (places : List Nat) :
    Threads.Runs Db.Step (QueueCall.program queueEnv) Db.empty (raceRun places).1
      (raceRun places).2 :=
  Threads.runs_follow Db.Step.takes _

private theorem raceRun_returned {places : List Nat}
    (ended : (raceRun places).2.threads.map (fun thread => thread.2.result) =
      [some (.ok ()), some (.ok ())]) :
    ∀ thread ∈ (raceRun places).2.threads, thread.2 = .done (.ok ()) := by
  intro thread member
  have result : thread.2.result ∈ (raceRun places).2.threads.map (fun thread => thread.2.result) :=
    List.mem_map_of_mem member
  rw [ended] at result
  simp only [List.mem_cons, List.not_mem_nil, or_false, or_self] at result
  exact eq_done_of_result result

/-- The first request has read the list, then the second one runs, then the first one goes on. -/
def overtaken : List Nat := List.replicate 4 0 ++ List.replicate 10 1 ++ List.replicate 6 0

private theorem overtaken_stored : (raceRun overtaken).2.state mpcApprovingKeys =
    some (queueEnv.marshalKeys [buildKeyFromData queueEnv.toEnv sampleData .approving]) := by
  decide +kernel

theorem overtaken_request_lost :
    ∃ trace t, Threads.Runs Db.Step (QueueCall.program queueEnv) Db.empty trace t ∧
      t.calls.started = raceCalls ∧ DistinctKeys queueEnv raceCalls ∧
      (∀ thread ∈ t.threads, thread.2 = .done (.ok ())) ∧
      ¬∃ keys, RequestsKept queueEnv raceCalls Db.empty t.state [] keys := by
  refine ⟨_, _, raceRun_runs overtaken, by decide +kernel, raceCalls_distinct,
    raceRun_returned (by decide +kernel), ?_⟩
  rintro ⟨keys, kept⟩
  have list := kept.list
  rw [ApprovingKeys, overtaken_stored] at list
  have only := Except.ok.inj ((queueEnv_reads _).unmarshal.symm.trans list)
  have second := kept.added otherData (by simp [raceCalls]) rfl
  rw [← only, List.mem_singleton] at second
  exact absurd second (by decide +kernel)

/-- One request after the other: both are in the list. -/
theorem undisturbed_requests_kept_inTurn :
    ∃ trace t keys, Threads.Runs Db.Step (QueueCall.program queueEnv) Db.empty trace t ∧
      t.calls.started = raceCalls ∧ RequestsKept queueEnv raceCalls Db.empty t.state [] keys := by
  have runs := raceRun_runs (List.replicate 10 0 ++ List.replicate 10 1)
  have started : (raceRun (List.replicate 10 0 ++ List.replicate 10 1)).2.calls.started =
      raceCalls := by decide +kernel
  obtain ⟨keys, kept⟩ := undisturbed_requests_kept queueEnv queueEnv_reads Db.empty []
    (.inl ⟨rfl, rfl⟩) _ _ runs (started ▸ raceCalls_distinct)
    (undisturbed_of_check (by decide +kernel)) (raceRun_returned (by decide +kernel))
  exact ⟨_, _, keys, runs, started, started ▸ kept⟩

end SchnorrMpc
