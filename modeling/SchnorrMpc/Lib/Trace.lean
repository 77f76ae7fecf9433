import SchnorrMpc.Lib.Threads

/-!
# Traces of calls

The operations of all calls, in the order in which they were performed. A
program is described by what it may do next, given what it remembers of its own
operations, and by what it remembers when it ends. No other call can change
what a call remembers.
-/
namespace SchnorrMpc.Lib

/-- One operation of a call, and its answer. -/
structure Event {Op : Type} (Ans : Op → Type) (κ : Type) where
  call : κ
  op : Op
  answer : Ans op

namespace Prog

variable {Op : Type} {Ans : Op → Type} {ε α β M : Type}

/-- Whatever the answers, each operation of the program is one that `May` allows after what it
remembers, and it ends as `Ends` says. -/
def Conforms (note : M → (op : Op) → Ans op → M) (May : M → Op → Prop)
    (Ends : M → Outcome ε α → Prop) : M → Prog Ans ε α → Prop
  | m, done result => Ends m result
  | m, call op next => May m op ∧ ∀ answer, Conforms note May Ends (note m op answer) (next answer)

variable {note : M → (op : Op) → Ans op → M} {May : M → Op → Prop}
  {Ends : M → Outcome ε α → Prop}

theorem Conforms.bind {f : β → Prog Ans ε α} {p : Prog Ans ε β} {m : M}
    {Mid : M → Outcome ε β → Prop} (first : Conforms note May Mid m p)
    (second : ∀ m' value, Mid m' (.ok value) → Conforms note May Ends m' (f value))
    (errors : ∀ m' error, Mid m' (.err error) → Ends m' (.err error))
    (panics : ∀ m', Mid m' .panic → Ends m' .panic) :
    Conforms note May Ends m (p >>= f) := by
  induction p generalizing m with
  | done result =>
    cases result with
    | ok value => exact second m value first
    | err error => exact errors m error first
    | panic => exact panics m first
  | call op next ih => exact ⟨first.1, fun answer => ih answer (first.2 answer)⟩

theorem Conforms.weaken {Ends' : M → Outcome ε α → Prop} {p : Prog Ans ε α} {m : M}
    (conforms : Conforms note May Ends m p)
    (weaker : ∀ m' result, Ends m' result → Ends' m' result) : Conforms note May Ends' m p := by
  induction p generalizing m with
  | done result => exact weaker m result conforms
  | call op next ih => exact ⟨conforms.1, fun answer => ih answer (conforms.2 answer)⟩

/-- The result of a program that has ended. -/
def result : Prog Ans ε α → Option (Outcome ε α)
  | done outcome => some outcome
  | call _ _ => none

theorem eq_done_of_result {p : Prog Ans ε α} {outcome : Outcome ε α}
    (ended : p.result = some outcome) : p = done outcome := by
  cases p with
  | done other => exact congrArg done (Option.some.inj ended)
  | call op next => cases ended

end Prog

namespace Threads

variable {Op : Type} {Ans : Op → Type} {ε α σ κ M : Type}

/-- The runs of calls, with what they have done. -/
inductive Runs (step : σ → (op : Op) → Ans op → σ → Prop) (program : κ → Prog Ans ε α) (s : σ) :
    List (Event Ans κ) → Threads Ans ε α σ κ → Prop where
  | initial : Runs step program s [] (initial s)
  | start {trace : List (Event Ans κ)} {t : Threads Ans ε α σ κ} (call : κ) :
      Runs step program s trace t →
      Runs step program s trace
        ⟨t.state, ⟨t.calls.started ++ [call]⟩, t.threads ++ [(call, program call)]⟩
  | perform {trace : List (Event Ans κ)} {u u' : σ} {h : Calls κ}
      {before after : List (κ × Prog Ans ε α)} {call : κ} {op : Op} {next : Ans op → Prog Ans ε α}
      {answer : Ans op} :
      Runs step program s trace ⟨u, h, before ++ (call, .call op next) :: after⟩ →
      step u op answer u' →
      Runs step program s (trace ++ [⟨call, op, answer⟩])
        ⟨u', h, before ++ (call, next answer) :: after⟩

section Memory

variable [DecidableEq κ] (note : κ → M → (op : Op) → Ans op → M) (init : M)

/-- What a call remembers of its own operations. -/
def remember (trace : List (Event Ans κ)) (call : κ) : M :=
  trace.foldl (fun m event => if event.call = call then note call m event.op event.answer else m)
    init

@[simp] theorem remember_nil (call : κ) :
    remember note init ([] : List (Event Ans κ)) call = init := rfl

theorem remember_own (trace : List (Event Ans κ)) (call : κ) (op : Op) (answer : Ans op) :
    remember note init (trace ++ [⟨call, op, answer⟩]) call =
      note call (remember note init trace call) op answer := by
  simp [remember]

theorem remember_other (trace : List (Event Ans κ)) {event : Event Ans κ} {call : κ}
    (other : event.call ≠ call) :
    remember note init (trace ++ [event]) call = remember note init trace call := by
  simp [remember, other]

end Memory

section Runs

variable {step : σ → (op : Op) → Ans op → σ → Prop} {program : κ → Prog Ans ε α} {s : σ}
variable {trace : List (Event Ans κ)} {t : Threads Ans ε α σ κ}

theorem Runs.threads_calls (runs : Runs step program s trace t) :
    t.threads.map Prod.fst = t.calls.started := by
  induction runs with
  | initial => rfl
  | start call _ ih => simp [ih]
  | perform _ _ ih => simpa using ih

theorem Runs.event_started (runs : Runs step program s trace t) :
    ∀ event ∈ trace, event.call ∈ t.calls.started := by
  induction runs with
  | initial => simp
  | start call _ ih => exact fun event member => List.mem_append_left _ (ih event member)
  | perform earlier _ ih =>
    intro event member
    rcases List.mem_append.mp member with old | new
    · exact ih event old
    · obtain rfl := List.mem_singleton.mp new
      rw [← earlier.threads_calls]
      simp

variable [DecidableEq κ] {note : κ → M → (op : Op) → Ans op → M} {init : M}
variable {May : κ → M → Op → Prop} {Ends : κ → M → Outcome ε α → Prop}

theorem remember_of_silent (note : κ → M → (op : Op) → Ans op → M) (init : M) {call : κ}
    (silent : ∀ event ∈ trace, event.call ≠ call) : remember note init trace call = init := by
  induction trace using List.reverseRecOn with
  | nil => rfl
  | append_singleton trace event ih =>
    rw [remember_other note init trace (silent event (by simp))]
    exact ih fun other member => silent other (List.mem_append_left _ member)

section

variable (runs : Runs step program s trace t) (distinct : t.calls.started.Nodup)

include runs distinct

/-- In every run of distinct calls, what is left of each program conforms with what its call
remembers. -/
theorem Runs.conforms
    (each : ∀ call ∈ t.calls.started,
      Prog.Conforms (note call) (May call) (Ends call) init (program call)) :
    ∀ thread ∈ t.threads, Prog.Conforms (note thread.1) (May thread.1) (Ends thread.1)
      (remember note init trace thread.1) thread.2 := by
  induction runs with
  | initial => simp [Threads.initial]
  | @start trace t call earlier ih =>
    obtain ⟨distinct', -, apart⟩ := List.nodup_append.mp distinct
    intro thread member
    rcases List.mem_append.mp member with old | new
    · exact ih distinct' (fun other started => each other (List.mem_append_left _ started)) thread
        old
    · obtain rfl := List.mem_singleton.mp new
      have silent : ∀ event ∈ trace, event.call ≠ call := fun event happened =>
        apart _ (earlier.event_started event happened) _ (List.mem_singleton_self _)
      simp only [remember_of_silent note init silent]
      exact each call (List.mem_append_right _ (List.mem_singleton_self _))
  | @perform trace u u' h before after call op next answer earlier performed ih =>
    have calls := earlier.threads_calls
    simp only [List.map_append, List.map_cons] at calls
    rw [← calls] at distinct
    obtain ⟨-, behind, apart⟩ := List.nodup_append.mp distinct
    rw [← calls] at ih
    have kept := ih distinct (by rwa [calls])
    have own := kept (call, .call op next) (by simp)
    -- No other program belongs to this call, so what the others remember stays.
    have others (thread : κ × Prog Ans ε α) (member : thread ∈ before ∨ thread ∈ after) :
        call ≠ thread.1 := by
      rcases member with first | last
      · intro same
        exact apart _ (List.mem_map_of_mem first) _ List.mem_cons_self same.symm
      · intro same
        exact (List.nodup_cons.mp behind).1 (same ▸ List.mem_map_of_mem last)
    intro thread member
    rcases List.mem_append.mp member with first | last
    · rw [remember_other note init trace (others thread (.inl first))]
      exact kept thread (List.mem_append_left _ first)
    · rcases List.mem_cons.mp last with rfl | later
      · rw [remember_own]
        exact own.2 answer
      · rw [remember_other note init trace (others thread (.inr later))]
        exact kept thread (List.mem_append_right _ (List.mem_cons_of_mem _ later))

/-- What holds at first and is kept by every operation that its call may perform holds after every
run. -/
theorem Runs.invariant {Inv : List (Event Ans κ) → σ → Prop} {calls : List κ}
    (known : ∀ call ∈ t.calls.started, call ∈ calls)
    (each : ∀ call ∈ calls, Prog.Conforms (note call) (May call) (Ends call) init (program call))
    (holds : Inv [] s)
    (kept : ∀ trace u call op (answer : Ans op) u', call ∈ calls →
      May call (remember note init trace call) op → Inv trace u → step u op answer u' →
        Inv (trace ++ [⟨call, op, answer⟩]) u') :
    Inv trace t.state := by
  induction runs with
  | initial => exact holds
  | start call earlier ih =>
    exact ih (List.nodup_append.mp distinct).1
      (fun other started => known other (List.mem_append_left _ started))
  | @perform trace u u' h before after call op next answer earlier performed ih =>
    have conforms :=
      earlier.conforms distinct (fun other started => each other (known other started))
        (call, .call op next) (by simp)
    have started : call ∈ h.started := by
      rw [← earlier.threads_calls]
      simp
    exact kept trace u call op answer u' (known call started) conforms.1
      (ih distinct known) performed

end

end Runs

/-! ### Runs by a plan -/

/-- What happens next: a call is started, or the program at a place performs an operation. -/
inductive Turn (κ : Type) where
  | start (call : κ)
  | perform (i : Nat)

/-- One turn, when every operation answers in one way. -/
def turn (handle : (op : Op) → σ → Ans op × σ) (program : κ → Prog Ans ε α)
    (now : List (Event Ans κ) × Threads Ans ε α σ κ) :
    Turn κ → List (Event Ans κ) × Threads Ans ε α σ κ
  | .start call =>
    (now.1, ⟨now.2.state, ⟨now.2.calls.started ++ [call]⟩, now.2.threads ++ [(call, program call)]⟩)
  | .perform i =>
    match now.2.threads[i]? with
    | some (call, .call op next) =>
      let answer := handle op now.2.state
      (now.1 ++ [⟨call, op, answer.1⟩],
        ⟨answer.2, now.2.calls, now.2.threads.set i (call, next answer.1)⟩)
    | _ => now

def follow (handle : (op : Op) → σ → Ans op × σ) (program : κ → Prog Ans ε α) (s : σ)
    (turns : List (Turn κ)) : List (Event Ans κ) × Threads Ans ε α σ κ :=
  turns.foldl (turn handle program) ([], initial s)

theorem runs_turn {step : σ → (op : Op) → Ans op → σ → Prop}
    {handle : (op : Op) → σ → Ans op × σ} {program : κ → Prog Ans ε α} {s : σ}
    (takes : ∀ u op, step u op (handle op u).1 (handle op u).2)
    {now : List (Event Ans κ) × Threads Ans ε α σ κ}
    (runs : Runs step program s now.1 now.2) (next : Turn κ) :
    Runs step program s (turn handle program now next).1 (turn handle program now next).2 := by
  cases next with
  | start call => exact .start call runs
  | perform i =>
    unfold turn
    simp only
    split
    next call op next found =>
      -- The place of the program splits the list.
      obtain ⟨inside, same⟩ := List.getElem?_eq_some_iff.mp found
      have parts : now.2.threads = now.2.threads.take i ++ (call, .call op next) ::
          now.2.threads.drop (i + 1) := by
        rw [← same, List.getElem_cons_drop, List.take_append_drop]
      have before : Runs step program s now.1 ⟨now.2.state, now.2.calls,
          now.2.threads.take i ++ (call, .call op next) :: now.2.threads.drop (i + 1)⟩ := by
        rw [← parts]
        exact runs
      have after := before.perform (takes now.2.state op)
      rw [List.set_eq_take_append_cons_drop, if_pos inside]
      exact after
    next => exact runs

theorem runs_follow {step : σ → (op : Op) → Ans op → σ → Prop}
    {handle : (op : Op) → σ → Ans op × σ} {program : κ → Prog Ans ε α} {s : σ}
    (takes : ∀ u op, step u op (handle op u).1 (handle op u).2) (turns : List (Turn κ)) :
    Runs step program s (follow handle program s turns).1 (follow handle program s turns).2 := by
  induction turns using List.reverseRecOn with
  | nil => exact .initial
  | append_singleton turns next ih =>
    simp only [follow, List.foldl_append, List.foldl_cons, List.foldl_nil]
    exact runs_turn takes ih next

end Threads
end SchnorrMpc.Lib
