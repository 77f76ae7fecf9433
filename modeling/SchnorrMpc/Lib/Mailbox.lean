import Mathlib.Data.List.Basic
import Mathlib.Data.List.ReduceOption

/-!
# Mailboxes

A queue of messages with one reader. A mark in the queue tells the reader to
stop, and no one takes what is behind it.
-/
namespace SchnorrMpc.Lib.Mailbox

variable {α : Type}

/-- The messages that no reader is going to take. -/
def unread (reading : Bool) (queue : List (Option α)) : List α :=
  if reading then (queue.dropWhile Option.isSome).reduceOption else queue.reduceOption

theorem length_eq (queue : List (Option α)) :
    queue.length = (unread false queue).length + queue.countP Option.isNone := by
  unfold unread
  induction queue with
  | nil => rfl
  | cons entry queue ih =>
    cases entry with
    | none => simp_all [Nat.add_assoc]
    | some message =>
      simp_all
      omega

theorem dropWhile_append_message (queue : List (Option α)) (entry : Option α) :
    (queue ++ [entry]).dropWhile Option.isSome =
      if queue.dropWhile Option.isSome = [] then [entry].dropWhile Option.isSome
      else queue.dropWhile Option.isSome ++ [entry] := by
  rw [List.dropWhile_append]
  simp [List.isEmpty_iff]

theorem length_unread_put (reading : Bool) (queue : List (Option α)) (message : α) :
    (unread reading (queue ++ [some message])).length ≤ (unread reading queue).length + 1 := by
  unfold unread
  split
  · rw [dropWhile_append_message]
    split
    next read => simp [read]
    next => simp [List.reduceOption_append]
  · simp [List.reduceOption_append]

theorem unread_stop (reading : Bool) (queue : List (Option α)) :
    unread reading (queue ++ [none]) = unread reading queue := by
  unfold unread
  split
  · rw [dropWhile_append_message]
    split
    next read => simp [read]
    next => simp [List.reduceOption_append]
  · simp [List.reduceOption_append]

@[simp] theorem unread_take (message : α) (queue : List (Option α)) :
    unread true (some message :: queue) = unread true queue := rfl

theorem unread_stopped (queue : List (Option α)) :
    unread false queue = unread true (none :: queue) := rfl

theorem length_unread_start (queue : List (Option α)) :
    (unread true queue).length ≤ (unread false queue).length := by
  have kept : (queue.dropWhile Option.isSome).reduceOption.Sublist queue.reduceOption :=
    (List.dropWhile_sublist _).filterMap id
  exact kept.length_le

end SchnorrMpc.Lib.Mailbox
