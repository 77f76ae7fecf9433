import Mathlib.Data.List.Range
import Mathlib.Data.Nat.Notation

/-!
# Calls that return, fail or panic

A call of an imperative program returns a value, returns an error that its
caller may handle, or panics, which nobody handles. Sequencing stops at the
first error and at the first panic, and the two stay distinct.
-/
namespace SchnorrMpc.Lib

inductive Outcome (ε α : Type) where
  | ok (value : α)
  | err (error : ε)
  | panic
  deriving DecidableEq, Repr

namespace Outcome

variable {ε α β γ : Type}

protected def bind (call : Outcome ε α) (next : α → Outcome ε β) : Outcome ε β :=
  match call with
  | ok value => next value
  | err error => err error
  | panic => panic

instance : Monad (Outcome ε) where
  pure := ok
  bind := Outcome.bind

@[simp] theorem pure_eq (value : α) : (pure value : Outcome ε α) = ok value := rfl

@[simp] theorem ok_bind (value : α) (next : α → Outcome ε β) :
    (ok value >>= next) = next value := rfl

@[simp] theorem err_bind (error : ε) (next : α → Outcome ε β) :
    ((err error : Outcome ε α) >>= next) = err error := rfl

@[simp] theorem panic_bind (next : α → Outcome ε β) :
    ((panic : Outcome ε α) >>= next) = panic := rfl

instance : LawfulMonad (Outcome ε) :=
  LawfulMonad.mk' (Outcome ε) (fun call => by cases call <;> rfl) (fun _ _ => rfl)
    (fun call _ _ => by cases call <;> rfl)

theorem bind_eq_ok_iff (call : Outcome ε α) (next : α → Outcome ε β) (result : β) :
    (call >>= next) = ok result ↔ ∃ value, call = ok value ∧ next value = ok result := by
  cases call <;> simp

theorem bind_ne_panic_iff (call : Outcome ε α) (next : α → Outcome ε β) :
    (call >>= next) ≠ panic ↔ call ≠ panic ∧ ∀ value, call = ok value → next value ≠ panic := by
  cases call <;> simp

/-- The call does not panic, and what it returns is as required. -/
def Safe (call : Outcome ε α) (required : α → Prop) : Prop :=
  call ≠ panic ∧ ∀ value, call = ok value → required value

section Safe

variable {required : α → Prop}

@[simp] theorem safe_ok_iff (value : α) : (ok value : Outcome ε α).Safe required ↔
    required value := by
  simp [Safe]

@[simp] theorem safe_err (error : ε) : (err error : Outcome ε α).Safe required := by simp [Safe]

@[simp] theorem not_safe_panic : ¬(panic : Outcome ε α).Safe required := by simp [Safe]

theorem safe_congr {required' : α → Prop} (same : ∀ value, required value ↔ required' value)
    (call : Outcome ε α) : call.Safe required ↔ call.Safe required' :=
  and_congr_right fun _ => forall₂_congr fun value _ => same value

theorem safe_bind_iff (call : Outcome ε β) (next : β → Outcome ε α) :
    (call >>= next).Safe required ↔ call.Safe fun value => (next value).Safe required := by
  cases call <;> simp

end Safe

/-- The value that a call returns, and another one where it does not return. -/
def getD : Outcome ε α → α → α
  | ok value, _ => value
  | _, default => default

/-- Reading past the end of a slice panics. -/
def index (items : List α) (i : Nat) : Outcome ε α :=
  match items[i]? with
  | some item => ok item
  | none => panic

theorem index_eq_ok_iff (items : List α) (i : Nat) (item : α) :
    (index items i : Outcome ε α) = ok item ↔ items[i]? = some item := by
  unfold index
  cases items[i]? <;> simp

theorem index_of_getElem? {items : List α} {i : Nat} {item : α} (found : items[i]? = some item) :
    (index items i : Outcome ε α) = ok item :=
  (index_eq_ok_iff items i item).mpr found

@[simp] theorem index_cons_zero (item : α) (items : List α) :
    (index (item :: items) 0 : Outcome ε α) = ok item := rfl

@[simp] theorem index_cons_succ (item : α) (items : List α) (i : Nat) :
    (index (item :: items) (i + 1) : Outcome ε α) = index items i := rfl

@[simp] theorem index_nil (i : Nat) : (index ([] : List α) i : Outcome ε α) = panic := rfl

theorem foldlM_eq_ok {items : List α} {body : β → α → Outcome ε β} {round : β → α → β}
    (returns : ∀ acc, ∀ item ∈ items, body acc item = ok (round acc item)) (start : β) :
    items.foldlM body start = ok (items.foldl round start) := by
  induction items generalizing start with
  | nil => rfl
  | cons item items ih =>
    have first := returns start item List.mem_cons_self
    rw [List.foldlM_cons, first, ok_bind, List.foldl_cons]
    exact ih (fun acc other member => returns acc other (List.mem_cons_of_mem _ member)) _

theorem foldlM_congr {items : List α} {body body' : β → α → Outcome ε β}
    (same : ∀ acc, ∀ item ∈ items, body acc item = body' acc item) (start : β) :
    items.foldlM body start = items.foldlM body' start := by
  induction items generalizing start with
  | nil => rfl
  | cons item items ih =>
    obtain ⟨first, others⟩ := forall_and.mp fun acc => List.forall_mem_cons.mp (same acc)
    rw [List.foldlM_cons, List.foldlM_cons, first]
    exact congrArg _ (funext fun acc => ih others acc)

theorem foldlM_invariant {items : List α} {body : β → α → Outcome ε β} (P : β → Prop)
    (keeps : ∀ acc next, ∀ item ∈ items, P acc → body acc item = ok next → P next)
    {start result : β} (initial : P start) (returned : items.foldlM body start = ok result) :
    P result := by
  induction items generalizing start with
  | nil => cases returned; exact initial
  | cons item items ih =>
    rw [List.foldlM_cons, bind_eq_ok_iff] at returned
    obtain ⟨next, first, rest⟩ := returned
    refine ih (fun acc after other member => keeps acc after other (List.mem_cons_of_mem _ member))
      (keeps start next item List.mem_cons_self initial first) rest

theorem foldlM_cases {fine : α → Prop} {body : β → α → Outcome ε β}
    (each : ∀ acc item, (fine item ∧ ∃ next, body acc item = ok next) ∨
      (¬fine item ∧ body acc item = panic)) (items : List α) (start : β) :
    ((∀ item ∈ items, fine item) ∧ ∃ result, items.foldlM body start = ok result) ∨
      ((∃ item ∈ items, ¬fine item) ∧ items.foldlM body start = panic) := by
  induction items generalizing start with
  | nil => exact .inl ⟨by simp, start, rfl⟩
  | cons item items ih =>
    rw [List.foldlM_cons]
    rcases each start item with ⟨good, next, first⟩ | ⟨bad, panics⟩
    · rw [first, ok_bind]
      rcases ih next with ⟨all, returns⟩ | ⟨⟨other, member, bad⟩, panics⟩
      · exact .inl ⟨List.forall_mem_cons.mpr ⟨good, all⟩, returns⟩
      · exact .inr ⟨⟨other, List.mem_cons_of_mem _ member, bad⟩, panics⟩
    · exact .inr ⟨⟨item, List.mem_cons_self, bad⟩, by rw [panics]; rfl⟩

theorem mapM_eq_ok {items : List α} {call : α → Outcome ε β} {value : α → β}
    (returns : ∀ item ∈ items, call item = ok (value item)) :
    items.mapM call = ok (items.map value) := by
  induction items with
  | nil => rfl
  | cons item items ih =>
    rw [List.mapM_cons, returns item List.mem_cons_self, ok_bind,
      ih (fun other member => returns other (List.mem_cons_of_mem _ member)), ok_bind]
    rfl

theorem forall₂_of_mapM {items : List α} {call : α → Outcome ε β} {values : List β}
    (returned : items.mapM call = ok values) :
    List.Forall₂ (fun item value => call item = ok value) items values := by
  induction items generalizing values with
  | nil =>
    cases returned
    exact .nil
  | cons item items ih =>
    rw [List.mapM_cons, bind_eq_ok_iff] at returned
    obtain ⟨value, first, rest⟩ := returned
    rw [bind_eq_ok_iff] at rest
    obtain ⟨values, others, same⟩ := rest
    cases same
    exact .cons first (ih others)

end Outcome
end SchnorrMpc.Lib
