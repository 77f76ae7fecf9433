import SchnorrMpc.Crypto.PublicKey
import SchnorrMpc.Validator.Database

/-!
# Approval of data to be signed

A follower signs data that its operator has approved. Requests wait in the
database as approving records, whose keys are also kept in one list, and become
approved records. Every function here is a program over the database.
-/
namespace SchnorrMpc

open Lib

structure SendData where
  pkBytes : Bytes
  data : Bytes
  ext : Bytes
  deriving DecidableEq, Repr

inductive Status where
  | approving
  | approved
  deriving DecidableEq, Repr

def Status.text : Status → Bytes
  | approving => utf8 "MpcApproving"
  | approved => utf8 "MpcApproved"

/-- The key of the list of the keys of the waiting requests. -/
def mpcApprovingKeys : Bytes := utf8 "MpcApprovingKeys"

/-- Hashing, and JSON of requests and of lists of keys. -/
structure ValEnv extends Env where
  marshalData : SendData → Bytes
  unmarshalData : Bytes → Except Err SendData
  marshalKeys : List Bytes → Bytes
  unmarshalKeys : Bytes → Except Err (List Bytes)

/-- The string that is hashed: neither framed nor with the rest of the data. -/
def keyString (data : SendData) (status : Status) : Bytes :=
  data.pkBytes ++ data.data ++ status.text

def buildKeyFromData (env : Env) (data : SendData) (status : Status) : Bytes :=
  (env.keccak256 (keyString data status)).val

abbrev DbM (α : Type) := Prog DbAns Err α

namespace DbM

/-- Return an error that was answered. -/
def unwrap {α : Type} : Except Err α → DbM α
  | .ok value => .done (.ok value)
  | .error error => .done (.err error)

def fail {α : Type} (error : Err) : DbM α := .done (.err error)

def dbInstance : DbM (Except Err Unit) := Prog.perform DbOp.getDB

def has (key : Bytes) : DbM (Except Err Bool) := Prog.perform (DbOp.has key)

def get (key : Bytes) : DbM (Except Err Bytes) := Prog.perform (DbOp.get key)

def put (key value : Bytes) : DbM (Except Err Unit) := Prog.perform (DbOp.put key value)

def delete (key : Bytes) : DbM (Except Err Unit) := Prog.perform (DbOp.delete key)

def getDB : DbM Unit := dbInstance >>= unwrap

section Calls

variable {α : Type} (key value : Bytes)

@[simp] theorem unwrap_ok (result : α) : unwrap (.ok result) = .done (.ok result) := rfl

@[simp] theorem unwrap_error (error : Err) :
    (unwrap (.error error) : DbM α) = .done (.err error) := rfl

@[simp] theorem dbInstance_bind (f : Except Err Unit → DbM α) :
    (dbInstance >>= f) = .call .getDB f := rfl

@[simp] theorem has_bind (f : Except Err Bool → DbM α) : (has key >>= f) = .call (.has key) f := rfl

@[simp] theorem get_bind (f : Except Err Bytes → DbM α) : (get key >>= f) = .call (.get key) f :=
  rfl

@[simp] theorem put_bind (f : Except Err Unit → DbM α) :
    (put key value >>= f) = .call (.put key value) f := rfl

@[simp] theorem delete_bind (f : Except Err Unit → DbM α) :
    (delete key >>= f) = .call (.delete key) f := rfl

@[simp] theorem getDB_bind (f : Unit → DbM α) :
    (getDB >>= f) = .call .getDB (fun answer => unwrap answer >>= f) := rfl

end Calls

end DbM

open DbM

/-- Whatever is put is read back at once. -/
def addKeyValueToDB (key value : Bytes) : DbM Unit := do
  getDB
  unwrap (← DbM.put key value)
  let _ ← unwrap (← DbM.get key)
  pure ()

def inByteArray (data : Bytes) (collection : List Bytes) : Bool := collection.contains data

def deleteInByteArray (data : Bytes) (collection : List Bytes) : List Bytes :=
  if !inByteArray data collection then collection
  else collection.filter (fun value => value ≠ data)

/-! ### Requests -/

/-- The list of keys that `Get` answered with; a missing list is an empty one. -/
def readApprovingKeys (venv : ValEnv) : Except Err Bytes → DbM (List Bytes)
  | .ok ret => if ret.length ≠ 0 then unwrap (venv.unmarshalKeys ret) else pure []
  | .error error => if error ≠ errNotFound then fail error else pure []

def addApprovingData (venv : ValEnv) (dataItem : SendData) : DbM Unit := do
  getDB
  let approvedKey := buildKeyFromData venv.toEnv dataItem .approved
  let isExist ← unwrap (← DbM.has approvedKey)
  if isExist then pure ()
  else do
    let approvingKey := buildKeyFromData venv.toEnv dataItem .approving
    let approvingKeys ← readApprovingKeys venv (← DbM.get mpcApprovingKeys)
    let inApprovingKeys := inByteArray approvingKey approvingKeys
    let existApprovingDb ← unwrap (← DbM.has approvingKey)
    if existApprovingDb && inApprovingKeys then pure ()
    else do
      if !existApprovingDb then addKeyValueToDB approvingKey (venv.marshalData dataItem)
      if !inApprovingKeys then
        addKeyValueToDB mpcApprovingKeys (venv.marshalKeys (approvingKeys ++ [approvingKey]))

/-! ### Approval -/

/-- Data whose key is not in the list is reported without an error. -/
def approveOneData (venv : ValEnv) (approveData : SendData) : DbM Unit := do
  let approvingKey := buildKeyFromData venv.toEnv approveData .approving
  getDB
  let ret ← unwrap (← DbM.get mpcApprovingKeys)
  let approvingKeys ← unwrap (venv.unmarshalKeys ret)
  if !inByteArray approvingKey approvingKeys then pure ()
  else
    match ← DbM.has approvingKey with
    | .ok true => do
      addKeyValueToDB (buildKeyFromData venv.toEnv approveData .approved)
        (venv.marshalData approveData)
      addKeyValueToDB mpcApprovingKeys
        (venv.marshalKeys (deleteInByteArray approvingKey approvingKeys))
      unwrap (← DbM.delete approvingKey)
    | _ => fail (.new (utf8 "can not fond in approving db"))

def approveEach (venv : ValEnv) : List SendData → DbM (List (Except Err Unit))
  | [] => pure []
  | dataItem :: rest => do
    let result ← (approveOneData venv dataItem).attempt
    let results ← approveEach venv rest
    pure (result :: results)

/-- `ApproveData`: each item with its own error. -/
def approveData (venv : ValEnv) (data : List SendData) : DbM (List (Except Err Unit)) :=
  approveEach venv data

/-- `AddValidData`: approval of data that nobody has asked for yet. -/
def addOneValidData (venv : ValEnv) (approveData : SendData) : DbM Unit := do
  getDB
  let key := buildKeyFromData venv.toEnv approveData .approved
  match ← DbM.has key with
  | .ok true => fail (.new (utf8 "has in approved db"))
  | .error error => fail error
  | .ok false => addKeyValueToDB key (venv.marshalData approveData)

/-! ### Reading -/

/-- Items that cannot be read are left out. -/
def readApprovingItems (venv : ValEnv) : List Bytes → DbM (List SendData)
  | [] => pure []
  | key :: rest => do
    let approvingItem ← DbM.get key
    let items ← readApprovingItems venv rest
    match approvingItem with
    | .error _ => pure items
    | .ok content =>
      match venv.unmarshalData content with
      | .error _ => pure items
      | .ok item => pure (item :: items)

/-- Every failure gives an empty list. -/
def getDataForApprove (venv : ValEnv) : DbM (List SendData) := do
  match ← dbInstance with
  | .error _ => pure []
  | .ok () =>
    match ← DbM.get mpcApprovingKeys with
    | .error _ => pure []
    | .ok ret =>
      match venv.unmarshalKeys ret with
      | .error _ => pure []
      | .ok approvingKeys => readApprovingItems venv approvingKeys

/-- Ask for the key until it is there or the time is over, which is after `polls` more rounds. -/
def waitKeyFromDB (key : Bytes) : (polls : Nat) → DbM Unit
  | 0 => do
    let isExist ← unwrap (← DbM.has key)
    if isExist then pure () else fail (.new (utf8 "waitKeyFromDB, time out"))
  | polls + 1 => do
    let isExist ← unwrap (← DbM.has key)
    if isExist then pure () else waitKeyFromDB key polls

/-- `ValidateData`: the data is approved, word for word. The error says why it is not. -/
def validateData (venv : ValEnv) (data : SendData) (polls : Nat) : DbM Unit := do
  match ← dbInstance with
  | .error _ => fail .errGetDb
  | .ok () =>
    let approvedKey := buildKeyFromData venv.toEnv data .approved
    match ← (do getDB; waitKeyFromDB approvedKey polls : DbM Unit).attempt with
    | .error _ => fail .errWaitApproved
    | .ok () =>
      match ← DbM.get approvedKey with
      | .error _ => fail .errGetApproved
      | .ok value =>
        if value ≠ venv.marshalData data then fail .errApprovedNotConsistent
        else pure ()

end SchnorrMpc
