import SchnorrMpc.Validator.Validator

/-!
# What the approval functions do

Without faults each function is a function of the contents of the database.
With faults, the rules here say what is known after each operation.
-/
namespace SchnorrMpc

open Lib DbM

variable {d d' : SendData} {venv : ValEnv} {db : Db} {keyOf : SendData → Bytes}
  {items : List SendData} {key : Bytes}

/-- No collision among the strings that are hashed for these data. -/
def NoCollision (env : Env) (data : List SendData) : Prop :=
  ∀ d ∈ data, ∀ d' ∈ data, ∀ status status',
    env.keccak256 (keyString d status) = env.keccak256 (keyString d' status') →
      keyString d status = keyString d' status'

theorem keyString_eq_iff (d d' : SendData) (status status' : Status) :
    keyString d status = keyString d' status' ↔
      d.pkBytes ++ d.data = d'.pkBytes ++ d'.data ∧ status = status' := by
  constructor
  · intro same
    -- the texts of the two statuses end with different letters
    have last := congrArg List.getLast? same
    rw [keyString, keyString, List.getLast?_append_of_ne_nil _ (by cases status <;> decide),
      List.getLast?_append_of_ne_nil _ (by cases status' <;> decide)] at last
    obtain rfl : status = status' := by
      revert last
      cases status <;> cases status' <;> decide
    exact ⟨List.append_cancel_right same, rfl⟩
  · rintro ⟨same, rfl⟩
    rw [keyString, keyString, same]

section Keys

variable {env : Env} {data : List SendData} (noCollision : NoCollision env data)

include noCollision

theorem buildKeyFromData_eq_iff (member : d ∈ data) (member' : d' ∈ data) (status : Status) :
    buildKeyFromData env d status = buildKeyFromData env d' status ↔
      d.pkBytes ++ d.data = d'.pkBytes ++ d'.data := by
  constructor
  · intro same
    have strings := noCollision d member d' member' status status (Subtype.ext same)
    exact ((keyString_eq_iff d d' status status).mp strings).1
  · intro same
    rw [buildKeyFromData, buildKeyFromData, (keyString_eq_iff d d' status status).mpr ⟨same, rfl⟩]

theorem approving_ne_approved (member : d ∈ data) (member' : d' ∈ data) :
    buildKeyFromData env d .approving ≠ buildKeyFromData env d' .approved := by
  intro same
  have strings := noCollision d member d' member' .approving .approved (Subtype.ext same)
  cases ((keyString_eq_iff d d' .approving .approved).mp strings).2

end Keys

theorem buildKeyFromData_ne_list (env : Env) (d : SendData) (status : Status) :
    buildKeyFromData env d status ≠ mpcApprovingKeys := by
  intro same
  have length := congrArg List.length same
  rw [buildKeyFromData, (env.keccak256 _).property] at length
  exact absurd length (by decide)

/-- The stored list of keys; a database without one has an empty list. -/
def HoldsList (venv : ValEnv) (db : Db) (keys : List Bytes) : Prop :=
  db mpcApprovingKeys = none ∧ keys = [] ∨ db mpcApprovingKeys = some (venv.marshalKeys keys)

section Run

variable (venv : ValEnv) (db : Db)

theorem run_addKeyValueToDB (key value : Bytes) :
    (addKeyValueToDB key value).run Db.handle db =
    (.ok (), Function.update db key (some value)) := by
  simp [addKeyValueToDB, Db.handle]

theorem run_addOneValidData (d : SendData) :
    (addOneValidData venv d).run Db.handle db =
      if (db (buildKeyFromData venv.toEnv d .approved)).isSome then
        (.err (.new (utf8 "has in approved db")), db)
      else (.ok (), Function.update db (buildKeyFromData venv.toEnv d .approved)
        (some (venv.marshalData d))) := by
  unfold addOneValidData
  cases approved : db (buildKeyFromData venv.toEnv d .approved) with
  | some value => simp [Db.handle, approved, fail]
  | none => simp [Db.handle, approved, run_addKeyValueToDB]

/-- Reading the list gives the keys back. -/
structure ReadsList (venv : ValEnv) (keys : List Bytes) : Prop where
  unmarshal : venv.unmarshalKeys (venv.marshalKeys keys) = .ok keys
  nonempty : (venv.marshalKeys keys).length ≠ 0

variable {venv db} {keys : List Bytes}

section

variable (holds : HoldsList venv db keys) (reads : ReadsList venv keys)

include holds reads

theorem readApprovingKeys_eq :
    readApprovingKeys venv (Db.handle (.get mpcApprovingKeys) db).1 = .done (.ok keys) := by
  rcases holds with ⟨missing, rfl⟩ | stored
  · simp [Db.handle, missing, readApprovingKeys]
  · simp [Db.handle, stored, readApprovingKeys, reads.unmarshal, List.ne_nil_of_length_pos
      (Nat.pos_of_ne_zero reads.nonempty)]

/-- A request that is not approved gets the record and the entry of the list that it lacks. -/
theorem run_addApprovingData_each (d : SendData) :
    (addApprovingData venv d).run Db.handle db = (.ok (),
      if (db (buildKeyFromData venv.toEnv d .approved)).isSome then db
      else
        let recorded := if (db (buildKeyFromData venv.toEnv d .approving)).isSome then db
          else Function.update db (buildKeyFromData venv.toEnv d .approving)
            (some (venv.marshalData d))
        if buildKeyFromData venv.toEnv d .approving ∈ keys then recorded
        else Function.update recorded mpcApprovingKeys
          (some (venv.marshalKeys (keys ++ [buildKeyFromData venv.toEnv d .approving])))) := by
  have listed := readApprovingKeys_eq holds reads
  unfold addApprovingData
  simp only [getDB_bind, has_bind, get_bind, Prog.run_call]
  cases approved : (db (buildKeyFromData venv.toEnv d .approved)).isSome with
  | true => simp [Db.handle, approved]
  | false =>
    simp only [Db.handle, unwrap_ok, Prog.done_ok_bind, approved, Bool.false_eq_true, if_false,
      Prog.run_call] at listed ⊢
    rw [listed]
    by_cases member : buildKeyFromData venv.toEnv d .approving ∈ keys <;>
      cases exist : (db (buildKeyFromData venv.toEnv d .approving)).isSome <;>
      simp [inByteArray, Db.handle, member, exist,
        Prog.run_bind _ _ _ _ (run_addKeyValueToDB _ _ _), run_addKeyValueToDB]

/-- A request is recorded and listed, unless it is approved or waiting already. -/
theorem run_addApprovingData (d : SendData)
    (agrees : (db (buildKeyFromData venv.toEnv d .approving)).isSome ↔
      buildKeyFromData venv.toEnv d .approving ∈ keys) :
    (addApprovingData venv d).run Db.handle db = (.ok (),
      if (db (buildKeyFromData venv.toEnv d .approved)).isSome ∨
          buildKeyFromData venv.toEnv d .approving ∈ keys then db
      else Function.update (Function.update db (buildKeyFromData venv.toEnv d .approving)
          (some (venv.marshalData d)))
        mpcApprovingKeys
        (some (venv.marshalKeys (keys ++ [buildKeyFromData venv.toEnv d .approving])))) := by
  rw [run_addApprovingData_each holds reads]
  by_cases approved : (db (buildKeyFromData venv.toEnv d .approved)).isSome
  · rw [if_pos approved, if_pos (.inl approved)]
  · by_cases member : buildKeyFromData venv.toEnv d .approving ∈ keys
    · simp [approved, member, agrees.mpr member]
    · simp [approved, member, mt agrees.mp member]

/-- Approval of a waiting request moves its record, and does nothing for any other data. It fails
only when there has never been a list. -/
theorem run_approveOneData (d : SendData)
    (recorded : buildKeyFromData venv.toEnv d .approving ∈ keys →
      (db (buildKeyFromData venv.toEnv d .approving)).isSome) :
    (approveOneData venv d).run Db.handle db =
      (if db mpcApprovingKeys = none then .err errNotFound else .ok (),
        if buildKeyFromData venv.toEnv d .approving ∈ keys then
          Function.update (Function.update (Function.update db
              (buildKeyFromData venv.toEnv d .approved) (some (venv.marshalData d)))
            mpcApprovingKeys (some (venv.marshalKeys
              (keys.filter (fun value => value ≠ buildKeyFromData venv.toEnv d .approving)))))
            (buildKeyFromData venv.toEnv d .approving) none
        else db) := by
  unfold approveOneData
  rcases holds with ⟨missing, rfl⟩ | stored
  · simp [Db.handle, missing]
  · simp only [getDB_bind, get_bind, Prog.run_call, unwrap_ok, Prog.done_ok_bind, Db.handle, stored,
      reads.unmarshal, reduceCtorEq, if_false]
    by_cases member : buildKeyFromData venv.toEnv d .approving ∈ keys
    · obtain ⟨value, exist⟩ := Option.isSome_iff_exists.mp (recorded member)
      simp [inByteArray, deleteInByteArray, Db.handle, member, exist,
        Prog.run_bind _ _ _ _ (run_addKeyValueToDB _ _ _)]
    · simp [inByteArray, member]

end

end Run

theorem run_readApprovingItems (stored : ∀ d ∈ items, db (keyOf d) = some (venv.marshalData d))
    (reads : ∀ d ∈ items, venv.unmarshalData (venv.marshalData d) = .ok d) :
    (readApprovingItems venv (items.map keyOf)).run Db.handle db = (.ok items, db) := by
  induction items with
  | nil => rfl
  | cons d items ih =>
    have rest := ih (fun d' member => stored d' (List.mem_cons_of_mem _ member))
      (fun d' member => reads d' (List.mem_cons_of_mem _ member))
    simp only [List.map_cons, readApprovingItems, get_bind, Prog.run_call, Db.handle,
      stored d List.mem_cons_self]
    rw [Prog.run_bind _ _ _ _ rest]
    simp [reads d List.mem_cons_self]

theorem run_getDataForApprove (holds : HoldsList venv db (items.map keyOf))
    (readsList : ReadsList venv (items.map keyOf))
    (stored : ∀ d ∈ items, db (keyOf d) = some (venv.marshalData d))
    (reads : ∀ d ∈ items, venv.unmarshalData (venv.marshalData d) = .ok d) :
    (getDataForApprove venv).run Db.handle db = (.ok items, db) := by
  unfold getDataForApprove
  rcases holds with ⟨missing, empty⟩ | list
  · obtain rfl := List.map_eq_nil_iff.mp empty
    simp [Db.handle, missing]
  · simp only [dbInstance_bind, get_bind, Prog.run_call, Db.handle, list, readsList.unmarshal]
    exact run_readApprovingItems stored reads

/-! ### With faults -/

section Faults

open Prog

variable {α : Type} {Inv : Db → Prop} {Post : α → Db → Prop} {db : Db} (holds : Inv db)

include holds

theorem meets_getDB {next : Except Err Unit → DbM α}
    (continues : ∀ answer, Meets Db.Step Inv Post (next answer) db) :
    Meets Db.Step Inv Post (.call .getDB next) db := by
  refine meets_call holds fun answer after taken => ?_
  rw [Db.step_getDB taken]
  exact continues answer

theorem meets_has {next : Except Err Bool → DbM α}
    (continues : ∀ answer, (∀ found, answer = .ok found → found = (db key).isSome) →
      Meets Db.Step Inv Post (next answer) db) :
    Meets Db.Step Inv Post (.call (.has key) next) db := by
  refine meets_call holds fun answer after taken => ?_
  obtain ⟨same, tells⟩ := Db.step_has taken
  rw [same]
  exact continues answer tells

theorem meets_get {next : Except Err Bytes → DbM α}
    (continues : ∀ answer, (∀ value, answer = .ok value → db key = some value) →
      (answer = .error errNotFound → db key = none) → Meets Db.Step Inv Post (next answer) db) :
    Meets Db.Step Inv Post (.call (.get key) next) db := by
  refine meets_call holds fun answer after taken => ?_
  obtain ⟨same, found, missing⟩ := Db.step_get taken
  rw [same]
  exact continues answer found missing

omit holds in
theorem meets_unwrap_bind {β : Type} {answer : Except Err β} {next : β → DbM α} (holds : Inv db)
    (continues : ∀ value, answer = .ok value → Meets Db.Step Inv Post (next value) db) :
    Meets Db.Step Inv Post (unwrap answer >>= next) db := by
  cases answer with
  | error error => exact meets_err holds
  | ok value => exact continues value rfl

theorem meets_addKeyValueToDB {value : Bytes} (after : Inv (Function.update db key (some value))) :
    Meets Db.Step Inv (fun _ t => t = Function.update db key (some value))
      (addKeyValueToDB key value) db := by
  unfold addKeyValueToDB
  simp only [getDB_bind, put_bind, get_bind]
  refine meets_getDB holds fun answer => meets_unwrap_bind holds fun _ _ => ?_
  refine meets_call holds fun answer t taken => ?_
  rcases Db.step_put taken with ⟨rfl, rfl⟩ | ⟨rfl, error, rfl⟩
  · refine meets_get after fun answer _ _ => meets_unwrap_bind after fun _ _ => ?_
    exact meets_ok after rfl
  · exact meets_err holds

end Faults

end SchnorrMpc
