import SchnorrMpc.Lib.Prog
import Mathlib.Logic.Relation
import Mathlib.Order.Basic

/-!
# Programs that take turns

Calls are started at any time and perform the operations of one shared state in
any order. What a call promises while the others run between its operations is
enough to know what holds in every state that is reached.
-/
namespace SchnorrMpc.Lib

namespace Prog

variable {Op : Type} {Ans : Op → Type} {ε α β σ : Type}

section Promises

variable {H : Type} [Preorder H]

/-- What a thread promises while others run between its calls. `Inv` is what all threads keep,
and it may speak about a history that only grows; `Post` is what the thread's end promises. -/
def Guarantees (step : σ → (op : Op) → Ans op → σ → Prop) (Inv : H → σ → Prop)
    (Post : H → Outcome ε α → Prop) : H → Prog Ans ε α → Prop
  | h, done result => ∀ h', h ≤ h' → Post h' result
  | h, call op next => ∀ h' s answer t, h ≤ h' → Inv h' s → step s op answer t →
      Inv h' t ∧ Guarantees step Inv Post h' (next answer)

variable {step : σ → (op : Op) → Ans op → σ → Prop} {Inv : H → σ → Prop}
  {Post : H → Outcome ε α → Prop}

theorem Guarantees.mono {p : Prog Ans ε α} {h h' : H} (promise : Guarantees step Inv Post h p)
    (later : h ≤ h') : Guarantees step Inv Post h' p := by
  cases p with
  | done result => exact fun h'' above => promise h'' (later.trans above)
  | call op next =>
    exact fun h'' s answer t above => promise h'' s answer t (later.trans above)

theorem Guarantees.call {op : Op} {next : Ans op → Prog Ans ε α} {h h' : H} {s t : σ}
    {answer : Ans op} (promise : Guarantees step Inv Post h (.call op next)) (later : h ≤ h')
    (holds : Inv h' s) (taken : step s op answer t) :
    Inv h' t ∧ Guarantees step Inv Post h' (next answer) :=
  promise h' s answer t later holds taken

/-- The promise of a sequence: the first half promises what the second half starts from. -/
theorem Guarantees.bind {f : β → Prog Ans ε α} {p : Prog Ans ε β} {h : H}
    {Mid : H → Outcome ε β → Prop} (first : Guarantees step Inv Mid h p)
    (second : ∀ h' value, h ≤ h' → Mid h' (.ok value) → Guarantees step Inv Post h' (f value))
    (errors : ∀ h' error, h ≤ h' → Mid h' (.err error) → Post h' (.err error))
    (panics : ∀ h', h ≤ h' → Mid h' .panic → Post h' .panic) :
    Guarantees step Inv Post h (p >>= f) := by
  induction p generalizing h with
  | done result =>
    cases result with
    | ok value => exact second h value le_rfl (first h le_rfl)
    | err error => exact fun h' later => errors h' error later (first h' later)
    | panic => exact fun h' later => panics h' later (first h' later)
  | call op next ih =>
    intro h' s answer t later holds taken
    obtain ⟨kept, rest⟩ := first h' s answer t later holds taken
    refine ⟨kept, ih answer rest ?_ ?_ ?_⟩
    · exact fun h'' value above => second h'' value (later.trans above)
    · exact fun h'' error above => errors h'' error (later.trans above)
    · exact fun h'' above => panics h'' (later.trans above)

theorem Guarantees.done_bind {outcome : Outcome ε β} {f : β → Prog Ans ε α} {h : H}
    (next : ∀ value, outcome = .ok value → Guarantees step Inv Post h (f value))
    (errors : ∀ h' error, Post h' (.err error)) (panics : ∀ h', Post h' .panic) :
    Guarantees step Inv Post h (done outcome >>= f) := by
  cases outcome with
  | ok value => exact next value rfl
  | err error => exact fun h' _ => errors h' error
  | panic => exact fun h' _ => panics h'

theorem Guarantees.of_all {P : Op → Prop} {p : Prog Ans ε α} {h : H} (all : All P p)
    (keeps : ∀ h' s op answer t, h ≤ h' → P op → Inv h' s → step s op answer t → Inv h' t)
    (post : ∀ h' result, h ≤ h' → Post h' result) : Guarantees step Inv Post h p := by
  induction p generalizing h with
  | done result => exact fun h' later => post h' result later
  | call op next ih =>
    intro h' s answer t later holds taken
    refine ⟨keeps h' s op answer t later all.1 holds taken, ih answer (all.2 answer) ?_ ?_⟩
    · exact fun h'' s op answer t above => keeps h'' s op answer t (later.trans above)
    · exact fun h'' result above => post h'' result (later.trans above)

/-- Turning errors into values turns the promise accordingly. -/
theorem Guarantees.attempt {p : Prog Ans ε α} {h : H} {Tried : H → Outcome ε (Except ε α) → Prop}
    (promise : Guarantees step Inv Post h p)
    (returns : ∀ h' value, Post h' (.ok value) → Tried h' (.ok (.ok value)))
    (fails : ∀ h' error, Post h' (.err error) → Tried h' (.ok (.error error)))
    (panics : ∀ h', Post h' .panic → Tried h' .panic) :
    Guarantees step Inv Tried h p.attempt := by
  induction p generalizing h with
  | done result =>
    cases result with
    | ok value => exact fun h' later => returns h' value (promise h' later)
    | err error => exact fun h' later => fails h' error (promise h' later)
    | panic => exact fun h' later => panics h' (promise h' later)
  | call op next ih =>
    intro h' s answer t later holds taken
    obtain ⟨kept, rest⟩ := promise h' s answer t later holds taken
    exact ⟨kept, ih answer rest⟩

end Promises

end Prog

/-! ### Systems of calls -/

/-- The calls that have been started so far. It only grows. -/
structure Calls (κ : Type) where
  started : List κ

instance {κ : Type} : Preorder (Calls κ) where
  le h h' := ∀ call ∈ h.started, call ∈ h'.started
  le_refl _ _ member := member
  le_trans _ _ _ first second call member := second call (first call member)

/-- The shared state, the calls so far, and the programs that are still there. -/
structure Threads {Op : Type} (Ans : Op → Type) (ε α σ κ : Type) where
  state : σ
  calls : Calls κ
  threads : List (κ × Prog Ans ε α)

namespace Threads

variable {Op : Type} {Ans : Op → Type} {ε α σ κ : Type}

def initial (s : σ) : Threads Ans ε α σ κ := ⟨s, ⟨[]⟩, []⟩

/-- A call is started, one of the programs performs its next operation, or all of them are lost,
with the state left as it is. -/
inductive Step (step : σ → (op : Op) → Ans op → σ → Prop) (program : κ → Prog Ans ε α) :
    Threads Ans ε α σ κ → Threads Ans ε α σ κ → Prop where
  | start (t : Threads Ans ε α σ κ) (call : κ) :
      Step step program t ⟨t.state, ⟨t.calls.started ++ [call]⟩,
        t.threads ++ [(call, program call)]⟩
  | perform {s s' : σ} {h : Calls κ} {before after : List (κ × Prog Ans ε α)} {call : κ} {op : Op}
      {next : Ans op → Prog Ans ε α} {answer : Ans op} :
      step s op answer s' →
      Step step program ⟨s, h, before ++ (call, .call op next) :: after⟩
        ⟨s', h, before ++ (call, next answer) :: after⟩
  | crash (t : Threads Ans ε α σ κ) : Step step program t ⟨t.state, t.calls, []⟩

def Reachable (step : σ → (op : Op) → Ans op → σ → Prop) (program : κ → Prog Ans ε α) (s : σ)
    (t : Threads Ans ε α σ κ) : Prop :=
  Relation.ReflTransGen (Step step program) (initial s) t

theorem perform_exec {step : σ → (op : Op) → Ans op → σ → Prop} (program : κ → Prog Ans ε α)
    {s u : σ} (h : Calls κ) (before after : List (κ × Prog Ans ε α)) (call : κ) {p : Prog Ans ε α}
    {result : Outcome ε α} (exec : Prog.Exec step p s (some result) u) :
    Relation.ReflTransGen (Step step program) ⟨s, h, before ++ (call, p) :: after⟩
      ⟨u, h, before ++ (call, .done result) :: after⟩ := by
  induction p generalizing s with
  | done outcome =>
    cases exec
    exact .refl
  | call op next ih =>
    obtain ⟨answer, t, taken, rest⟩ := Prog.exec_call_iff.mp exec
    exact .head (.perform taken) (ih answer rest)

section Invariant

variable {step : σ → (op : Op) → Ans op → σ → Prop} {program : κ → Prog Ans ε α}
variable {Inv : Calls κ → σ → Prop} {Post : κ → Calls κ → Outcome ε α → Prop}

/-- The shared invariant, and the promises of the programs that are still there. -/
structure Sound (step : σ → (op : Op) → Ans op → σ → Prop) (Inv : Calls κ → σ → Prop)
    (Post : κ → Calls κ → Outcome ε α → Prop) (t : Threads Ans ε α σ κ) : Prop where
  holds : Inv t.calls t.state
  promised : ∀ thread ∈ t.threads, Prog.Guarantees step Inv (Post thread.1) t.calls thread.2

variable (grows : ∀ h h' s, h ≤ h' → Inv h s → Inv h' s)
variable (promises : ∀ h call, call ∈ h.started →
  Prog.Guarantees step Inv (Post call) h (program call))

include grows promises

theorem Sound.next {t t' : Threads Ans ε α σ κ} (sound : Sound step Inv Post t)
    (taken : Step step program t t') : Sound step Inv Post t' := by
  cases taken with
  | start _ call =>
    have later : t.calls ≤ ⟨t.calls.started ++ [call]⟩ :=
      fun _ member => List.mem_append_left _ member
    refine ⟨grows _ _ _ later sound.holds, fun thread member => ?_⟩
    rcases List.mem_append.mp member with old | new
    · exact (sound.promised thread old).mono later
    · obtain rfl := List.mem_singleton.mp new
      exact promises _ _ (List.mem_append_right _ (List.mem_singleton_self _))
  | @perform s s' h before after call op next answer performed =>
    -- The other programs keep their promises: the history has not changed.
    have promise := sound.promised (call, .call op next)
      (List.mem_append_right _ List.mem_cons_self)
    obtain ⟨kept, rest⟩ := promise.call le_rfl sound.holds performed
    refine ⟨kept, fun thread member => ?_⟩
    rcases List.mem_append.mp member with first | last
    · exact sound.promised thread (List.mem_append_left _ first)
    · rcases List.mem_cons.mp last with rfl | later
      · exact rest
      · exact sound.promised thread (List.mem_append_right _ (List.mem_cons_of_mem _ later))
  | crash => exact ⟨sound.holds, fun thread member => absurd member List.not_mem_nil⟩

theorem Reachable.sound {s : σ} (init : Inv ⟨[]⟩ s) {t : Threads Ans ε α σ κ}
    (reachable : Reachable step program s t) : Sound step Inv Post t := by
  induction reachable with
  | refl => exact ⟨init, fun thread member => absurd member List.not_mem_nil⟩
  | tail _ taken ih => exact ih.next grows promises taken

theorem Reachable.post {s : σ} (init : Inv ⟨[]⟩ s) {t : Threads Ans ε α σ κ}
    (reachable : Reachable step program s t) {call : κ} {result : Outcome ε α}
    (ended : (call, .done result) ∈ t.threads) : Post call t.calls result :=
  (reachable.sound grows promises init).promised _ ended _ le_rfl

end Invariant
end Threads
end SchnorrMpc.Lib
