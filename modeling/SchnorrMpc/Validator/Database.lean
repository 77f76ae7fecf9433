import SchnorrMpc.Lib.Prog
import SchnorrMpc.Protocol.Error
import Mathlib.Logic.Function.Basic

/-!
# The approval database

The operations of the key-value store and how it answers. An operation is
atomic. It may fail, and then it has changed nothing.
-/
namespace SchnorrMpc

open Lib

inductive DbOp where
  | getDB
  | has (key : Bytes)
  | get (key : Bytes)
  | put (key value : Bytes)
  | delete (key : Bytes)
  deriving DecidableEq, Repr

/-- The operations that change the store. -/
def DbOp.isWrite : DbOp → Bool
  | .put _ _ => true
  | .delete _ => true
  | _ => false

abbrev DbAns : DbOp → Type
  | .getDB => Except Err Unit
  | .has _ => Except Err Bool
  | .get _ => Except Err Bytes
  | .put _ _ => Except Err Unit
  | .delete _ => Except Err Unit

/-- The error that tells a missing key from a failure. -/
def errNotFound : Err := .new (utf8 "leveldb: not found")

/-- The contents of the store. -/
abbrev Db := Bytes → Option Bytes

namespace Db

def empty : Db := fun _ => none

/-- How the store answers when nothing fails. -/
def handle : (op : DbOp) → Db → DbAns op × Db
  | .getDB, db => (.ok (), db)
  | .has key, db => (.ok (db key).isSome, db)
  | .get key, db =>
    (match db key with
      | some value => .ok value
      | none => .error errNotFound, db)
  | .put key value, db => (.ok (), Function.update db key (some value))
  | .delete key, db => (.ok (), Function.update db key none)

/-- The answer that reports a failure. -/
def failure (error : Err) : (op : DbOp) → DbAns op
  | .getDB => .error error
  | .has _ => .error error
  | .get _ => .error error
  | .put _ _ => .error error
  | .delete _ => .error error

/-- One operation on the store, which either takes place or fails. A failure is not reported as
a missing key. -/
inductive Step : Db → (op : DbOp) → DbAns op → Db → Prop where
  | takes (db : Db) (op : DbOp) : Step db op (handle op db).1 (handle op db).2
  | fails (db : Db) (op : DbOp) (error : Err) (other : error ≠ errNotFound) :
      Step db op (failure error op) db

/-! ### What an operation does, by kind -/

theorem step_getDB {db after : Db} {answer : DbAns .getDB} (taken : Step db .getDB answer after) :
    after = db := by
  cases taken <;> rfl

theorem step_has {db after : Db} {key : Bytes} {answer : DbAns (.has key)}
    (taken : Step db (.has key) answer after) :
    after = db ∧ ∀ found, answer = .ok found → found = (db key).isSome := by
  cases taken with
  | takes => exact ⟨rfl, fun found same => (Except.ok.inj same).symm⟩
  | fails error other =>
    refine ⟨rfl, fun found same => ?_⟩
    cases same

theorem step_get {db after : Db} {key : Bytes} {answer : DbAns (.get key)}
    (taken : Step db (.get key) answer after) :
    after = db ∧ (∀ value, answer = .ok value → db key = some value) ∧
      (answer = .error errNotFound → db key = none) := by
  cases taken with
  | takes =>
    refine ⟨rfl, ?_, ?_⟩
    · intro value same
      cases found : db key with
      | some stored =>
        simp only [handle, found, Except.ok.injEq] at same
        rw [same]
      | none => simp [handle, found] at same
    · intro missing
      cases found : db key with
      | some stored => simp [handle, found] at missing
      | none => rfl
  | fails error other =>
    refine ⟨rfl, fun value same => ?_, fun missing => ?_⟩
    · cases same
    · exact absurd (Except.error.inj missing) other

theorem step_put {db after : Db} {key value : Bytes} {answer : DbAns (.put key value)}
    (taken : Step db (.put key value) answer after) :
    (answer = .ok () ∧ after = Function.update db key (some value)) ∨
      (after = db ∧ ∃ error, answer = .error error) := by
  cases taken with
  | takes => exact .inl ⟨rfl, rfl⟩
  | fails error other => exact .inr ⟨rfl, error, rfl⟩

theorem step_delete {db after : Db} {key : Bytes} {answer : DbAns (.delete key)}
    (taken : Step db (.delete key) answer after) :
    after = Function.update db key none ∨ after = db := by
  cases taken with
  | takes => exact .inl rfl
  | fails error other => exact .inr rfl

end Db
end SchnorrMpc
