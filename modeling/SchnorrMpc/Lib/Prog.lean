import SchnorrMpc.Lib.Outcome

/-!
# Programs over an interface

A program either ends, with a value, an error or a panic, or calls an operation
of its interface and goes on with the answer. The interface itself is a step
relation on a state, so it may answer in more than one way, and a program may
be cut off between two calls.
-/
namespace SchnorrMpc.Lib

inductive Prog {Op : Type} (Ans : Op → Type) (ε α : Type) where
  | done (result : Outcome ε α)
  | call (op : Op) (next : Ans op → Prog Ans ε α)

namespace Prog

variable {Op : Type} {Ans : Op → Type} {ε α β σ : Type}

protected def bind : Prog Ans ε α → (α → Prog Ans ε β) → Prog Ans ε β
  | done (.ok value), f => f value
  | done (.err error), _ => done (.err error)
  | done .panic, _ => done .panic
  | call op next, f => call op (fun answer => (next answer).bind f)

instance : Monad (Prog Ans ε) where
  pure value := done (.ok value)
  bind := Prog.bind

/-- Call one operation and return its answer. -/
def perform (op : Op) : Prog Ans ε (Ans op) := call op (fun answer => done (.ok answer))

/-- Turn an error into a value. -/
def attempt : Prog Ans ε α → Prog Ans ε (Except ε α)
  | done (.ok value) => done (.ok (.ok value))
  | done (.err error) => done (.ok (.error error))
  | done .panic => done .panic
  | call op next => call op (fun answer => (next answer).attempt)

@[simp] theorem pure_eq (value : α) : (pure value : Prog Ans ε α) = done (.ok value) := rfl

@[simp] theorem done_ok_bind (value : α) (f : α → Prog Ans ε β) :
    (done (.ok value) >>= f) = f value := rfl

@[simp] theorem done_err_bind (error : ε) (f : α → Prog Ans ε β) :
    ((done (.err error) : Prog Ans ε α) >>= f) = done (.err error) := rfl

@[simp] theorem done_panic_bind (f : α → Prog Ans ε β) :
    ((done .panic : Prog Ans ε α) >>= f) = done .panic := rfl

@[simp] theorem call_bind (op : Op) (next : Ans op → Prog Ans ε α) (f : α → Prog Ans ε β) :
    (call op next >>= f) = call op (fun answer => next answer >>= f) := rfl

@[simp] theorem perform_bind (op : Op) (f : Ans op → Prog Ans ε β) :
    (perform op >>= f) = call op f := rfl

@[simp] theorem attempt_ok (value : α) :
    (done (.ok value) : Prog Ans ε α).attempt = done (.ok (.ok value)) := rfl

@[simp] theorem attempt_err (error : ε) :
    (done (.err error) : Prog Ans ε α).attempt = done (.ok (.error error)) := rfl

@[simp] theorem attempt_panic : (done .panic : Prog Ans ε α).attempt = done .panic := rfl

@[simp] theorem attempt_call (op : Op) (next : Ans op → Prog Ans ε α) :
    (call op next).attempt = call op (fun answer => (next answer).attempt) := rfl

/-- Every operation that the program can come to perform satisfies `P`. -/
def All (P : Op → Prop) : Prog Ans ε α → Prop
  | done _ => True
  | call op next => P op ∧ ∀ answer, All P (next answer)

theorem All.bind {P : Op → Prop} {p : Prog Ans ε α} {f : α → Prog Ans ε β} (first : All P p)
    (second : ∀ value, All P (f value)) : All P (p >>= f) := by
  induction p with
  | done result =>
    cases result with
    | ok value => exact second value
    | err error => trivial
    | panic => trivial
  | call op next ih => exact ⟨first.1, fun answer => ih answer (first.2 answer)⟩

theorem All.attempt {P : Op → Prop} {p : Prog Ans ε α} (all : All P p) : All P p.attempt := by
  induction p with
  | done result => cases result <;> trivial
  | call op next ih => exact ⟨all.1, fun answer => ih answer (all.2 answer)⟩

/-! ### Running alone -/

/-- The run of a program whose interface answers in exactly one way. -/
def run (handle : (op : Op) → σ → Ans op × σ) : Prog Ans ε α → σ → Outcome ε α × σ
  | done result, s => (result, s)
  | call op next, s => (next (handle op s).1).run handle (handle op s).2

@[simp] theorem run_done (handle : (op : Op) → σ → Ans op × σ) (result : Outcome ε α) (s : σ) :
    (done result : Prog Ans ε α).run handle s = (result, s) := rfl

@[simp] theorem run_call (handle : (op : Op) → σ → Ans op × σ) (op : Op)
    (next : Ans op → Prog Ans ε α) (s : σ) :
    (call op next).run handle s = (next (handle op s).1).run handle (handle op s).2 := rfl

theorem run_bind (handle : (op : Op) → σ → Ans op × σ) (p : Prog Ans ε α) (f : α → Prog Ans ε β)
    (s : σ) {value : α} {t : σ} (first : p.run handle s = (.ok value, t)) :
    (p >>= f).run handle s = (f value).run handle t := by
  induction p generalizing s with
  | done result =>
    cases first
    rfl
  | call op next ih => exact ih _ _ first

theorem run_attempt (handle : (op : Op) → σ → Ans op × σ) (p : Prog Ans ε α) (s : σ) :
    p.attempt.run handle s =
      (match (p.run handle s).1 with
        | .ok value => .ok (.ok value)
        | .err error => .ok (.error error)
        | .panic => .panic, (p.run handle s).2) := by
  induction p generalizing s with
  | done result => cases result <;> rfl
  | call op next ih => exact ih _ _

/-! ### Cut off after some writes -/

/-- The state that is left when the run is cut off as it is about to write once more, after its
first `n` writes. -/
def runCut (handle : (op : Op) → σ → Ans op × σ) (writes : Op → Bool) : Prog Ans ε α → Nat → σ → σ
  | done _, _, s => s
  | call op next, n, s =>
    match writes op, n with
    | false, n => (next (handle op s).1).runCut handle writes n (handle op s).2
    | true, 0 => s
    | true, n + 1 => (next (handle op s).1).runCut handle writes n (handle op s).2

section Cut

variable {handle : (op : Op) → σ → Ans op × σ} {writes : Op → Bool}

@[simp] theorem runCut_done (result : Outcome ε α) (n : Nat) (s : σ) :
    (done result : Prog Ans ε α).runCut handle writes n s = s := rfl

theorem runCut_read {op : Op} (reads : writes op = false) (next : Ans op → Prog Ans ε α) (n : Nat)
    (s : σ) : (call op next).runCut handle writes n s =
      (next (handle op s).1).runCut handle writes n (handle op s).2 := by
  simp only [runCut, reads]

theorem runCut_succ {op : Op} (write : writes op = true) (next : Ans op → Prog Ans ε α) (n : Nat)
    (s : σ) : (call op next).runCut handle writes (n + 1) s =
      (next (handle op s).1).runCut handle writes n (handle op s).2 := by
  simp only [runCut, write]

end Cut

/-! ### Running with faults -/

/-- The runs of a program. Without a result it was cut off after some of its calls. -/
inductive Exec (step : σ → (op : Op) → Ans op → σ → Prop) :
    Prog Ans ε α → σ → Option (Outcome ε α) → σ → Prop where
  | done (result : Outcome ε α) (s : σ) : Exec step (done result) s (some result) s
  | cut (p : Prog Ans ε α) (s : σ) : Exec step p s none s
  | call {op : Op} {next : Ans op → Prog Ans ε α} {s t u : σ} {answer : Ans op}
      {result : Option (Outcome ε α)} :
      step s op answer t → Exec step (next answer) t result u → Exec step (call op next) s result u

theorem exec_run {step : σ → (op : Op) → Ans op → σ → Prop} {handle : (op : Op) → σ → Ans op × σ}
    (takes : ∀ s op, step s op (handle op s).1 (handle op s).2) (p : Prog Ans ε α) (s : σ) :
    Exec step p s (some (p.run handle s).1) (p.run handle s).2 := by
  induction p generalizing s with
  | done result => exact .done _ _
  | call op next ih => exact .call (takes s op) (ih _ _)

theorem exec_runCut {step : σ → (op : Op) → Ans op → σ → Prop}
    {handle : (op : Op) → σ → Ans op × σ} {writes : Op → Bool}
    (takes : ∀ s op, step s op (handle op s).1 (handle op s).2) (p : Prog Ans ε α) (n : Nat)
    (s : σ) : Exec step p s none (p.runCut handle writes n s) := by
  induction p generalizing n s with
  | done result => exact .cut _ _
  | call op next ih =>
    unfold runCut
    split
    · exact .call (takes s op) (ih _ _ _)
    · exact .cut _ _
    · exact .call (takes s op) (ih _ _ _)

theorem exec_done_iff {step : σ → (op : Op) → Ans op → σ → Prop} {result result' : Outcome ε α}
    {s t : σ} : Exec step (done result) s (some result') t ↔ result' = result ∧ t = s := by
  constructor
  · intro exec
    cases exec
    exact ⟨rfl, rfl⟩
  · rintro ⟨rfl, rfl⟩
    exact .done _ _

theorem exec_call_iff {step : σ → (op : Op) → Ans op → σ → Prop} {op : Op}
    {next : Ans op → Prog Ans ε α} {result : Outcome ε α} {s u : σ} :
    Exec step (call op next) s (some result) u ↔
      ∃ answer t, step s op answer t ∧ Exec step (next answer) t (some result) u := by
  constructor
  · intro exec
    cases exec with
    | call taken rest => exact ⟨_, _, taken, rest⟩
  · rintro ⟨answer, t, taken, rest⟩
    exact .call taken rest

theorem exec_done_bind_iff {step : σ → (op : Op) → Ans op → σ → Prop} {outcome : Outcome ε α}
    {f : α → Prog Ans ε β} {s u : σ} {result : β} :
    Exec step (done outcome >>= f) s (some (.ok result)) u ↔
      ∃ value, outcome = .ok value ∧ Exec step (f value) s (some (.ok result)) u := by
  constructor
  · intro exec
    cases outcome with
    | ok value => exact ⟨value, rfl, exec⟩
    | err error => cases exec
    | panic => cases exec
  · rintro ⟨value, rfl, exec⟩
    exact exec

theorem Exec.bind {step : σ → (op : Op) → Ans op → σ → Prop} {p : Prog Ans ε α}
    {f : α → Prog Ans ε β} {s t u : σ} {value : α} {result : Option (Outcome ε β)}
    (first : Exec step p s (some (.ok value)) t) (second : Exec step (f value) t result u) :
    Exec step (p >>= f) s result u := by
  induction p generalizing s with
  | done outcome =>
    cases first
    exact second
  | call op next ih =>
    cases first with
    | call taken rest => exact .call taken (ih _ rest)

/-- How a sequence ends: in its second half, or where its first half breaks it off. -/
theorem exec_bind_iff {step : σ → (op : Op) → Ans op → σ → Prop} {p : Prog Ans ε α}
    {f : α → Prog Ans ε β} {s u : σ} {result : Outcome ε β} :
    Exec step (p >>= f) s (some result) u ↔
      (∃ value t, Exec step p s (some (.ok value)) t ∧ Exec step (f value) t (some result) u) ∨
        (∃ error, Exec step p s (some (.err error)) u ∧ result = .err error) ∨
        Exec step p s (some .panic) u ∧ result = .panic := by
  constructor
  · intro exec
    -- the first program returns, fails or panics, whatever it asks before
    induction p generalizing s with
    | done outcome =>
      cases outcome with
      | ok value => exact .inl ⟨value, s, .done _ _, exec⟩
      | err error =>
        cases exec
        exact .inr (.inl ⟨error, .done _ _, rfl⟩)
      | panic =>
        cases exec
        exact .inr (.inr ⟨.done _ _, rfl⟩)
    | call op next ih =>
      rw [call_bind, exec_call_iff] at exec
      obtain ⟨answer, t, taken, rest⟩ := exec
      rcases ih answer rest with ⟨value, t', first, second⟩ | ⟨error, first, same⟩ | ⟨first, same⟩
      · exact .inl ⟨value, t', .call taken first, second⟩
      · exact .inr (.inl ⟨error, .call taken first, same⟩)
      · exact .inr (.inr ⟨.call taken first, same⟩)
  · intro ends
    induction p generalizing s with
    | done outcome =>
      rcases ends with ⟨value, t, first, second⟩ | ⟨error, first, rfl⟩ | ⟨first, rfl⟩
      · exact Exec.bind first second
      · cases first
        exact .done _ _
      · cases first
        exact .done _ _
    | call op next ih =>
      simp only [exec_call_iff] at ends
      rcases ends with ⟨value, t, ⟨answer, s', taken, first⟩, second⟩ |
        ⟨error, ⟨answer, s', taken, first⟩, same⟩ | ⟨⟨answer, s', taken, first⟩, same⟩
      · exact .call taken (ih answer (.inl ⟨value, t, first, second⟩))
      · exact .call taken (ih answer (.inr (.inl ⟨error, first, same⟩)))
      · exact .call taken (ih answer (.inr (.inr ⟨first, same⟩)))

theorem exec_bind_ok {step : σ → (op : Op) → Ans op → σ → Prop} {p : Prog Ans ε α}
    {f : α → Prog Ans ε β} {s u : σ} {result : β}
    (exec : Exec step (p >>= f) s (some (.ok result)) u) :
    ∃ value t, Exec step p s (some (.ok value)) t ∧
      Exec step (f value) t (some (.ok result)) u := by
  rcases exec_bind_iff.mp exec with both | ⟨error, -, same⟩ | ⟨-, same⟩
  · exact both
  · cases same
  · cases same

/-! ### Ending without a panic -/

/-- However its calls are answered, the program ends in `P`. -/
def Ends (P : Outcome ε α → Prop) : Prog Ans ε α → Prop
  | done result => P result
  | call _ next => ∀ answer, (next answer).Ends P

@[simp] theorem ends_done (P : Outcome ε α → Prop) (result : Outcome ε α) :
    (done result : Prog Ans ε α).Ends P ↔ P result := .rfl

@[simp] theorem ends_call (P : Outcome ε α → Prop) (op : Op) (next : Ans op → Prog Ans ε α) :
    (call op next).Ends P ↔ ∀ answer, (next answer).Ends P := .rfl

theorem Ends.exec {step : σ → (op : Op) → Ans op → σ → Prop} {P : Outcome ε α → Prop}
    {p : Prog Ans ε α} {s t : σ} {result : Outcome ε α} (ends : p.Ends P)
    (exec : Exec step p s (some result) t) : P result := by
  induction p generalizing s with
  | done outcome =>
    cases exec
    exact ends
  | call op next ih =>
    obtain ⟨answer, s', -, rest⟩ := exec_call_iff.mp exec
    exact ih answer (ends answer) rest

theorem Ends.bind {P : Outcome ε β → Prop} {Q : Outcome ε α → Prop} {p : Prog Ans ε α}
    {f : α → Prog Ans ε β} (first : p.Ends Q) (value : ∀ v, Q (.ok v) → (f v).Ends P)
    (error : ∀ e, Q (.err e) → P (.err e)) (panic : Q .panic → P .panic) : (p >>= f).Ends P := by
  induction p with
  | done outcome =>
    cases outcome with
    | ok v => exact value v first
    | err e => exact error e first
    | panic => exact panic first
  | call op next ih => exact fun answer => ih answer (first answer)

theorem ends_trivial (p : Prog Ans ε α) : p.Ends (fun _ => True) := by
  induction p with
  | done outcome => trivial
  | call op next ih => exact fun answer => ih answer

theorem ends_bind {P : Outcome ε β → Prop} {p : Prog Ans ε α} {f : α → Prog Ans ε β}
    (value : ∀ v, (f v).Ends P) (error : ∀ e, P (.err e)) (panic : P .panic) : (p >>= f).Ends P :=
  (ends_trivial p).bind (fun v _ => value v) (fun e _ => error e) (fun _ => panic)

theorem Ends.attempt {P : Outcome ε (Except ε α) → Prop} {Q : Outcome ε α → Prop}
    {p : Prog Ans ε α} (ends : p.Ends Q) (value : ∀ v, Q (.ok v) → P (.ok (.ok v)))
    (error : ∀ e, Q (.err e) → P (.ok (.error e))) (panic : Q .panic → P .panic) :
    p.attempt.Ends P := by
  induction p with
  | done outcome =>
    cases outcome with
    | ok v => exact value v ends
    | err e => exact error e ends
    | panic => exact panic ends
  | call op next ih => exact fun answer => ih answer (ends answer)

/-- No run of the program from this state ends in a panic. -/
def Survives (step : σ → (op : Op) → Ans op → σ → Prop) (p : Prog Ans ε α) (s : σ) : Prop :=
  ∀ result t, Exec step p s (some result) t → result ≠ .panic

section Survives

variable {step : σ → (op : Op) → Ans op → σ → Prop} {s : σ}

theorem survives_done_iff {result : Outcome ε α} :
    Survives step (done result : Prog Ans ε α) s ↔ result ≠ .panic := by
  simp only [Survives, exec_done_iff]
  exact ⟨fun survives => survives _ _ ⟨rfl, rfl⟩, fun ok result' t ends => ends.1 ▸ ok⟩

theorem survives_call_iff {op : Op} {next : Ans op → Prog Ans ε α} :
    Survives step (call op next) s ↔
      ∀ answer t, step s op answer t → Survives step (next answer) t := by
  simp only [Survives, exec_call_iff]
  constructor
  · intro survives answer t taken result u rest
    exact survives result u ⟨answer, t, taken, rest⟩
  · rintro survives result u ⟨answer, t, taken, rest⟩
    exact survives answer t taken result u rest

theorem survives_bind_iff {p : Prog Ans ε α} {f : α → Prog Ans ε β} :
    Survives step (p >>= f) s ↔
      Survives step p s ∧
        ∀ value t, Exec step p s (some (.ok value)) t → Survives step (f value) t := by
  simp only [Survives, exec_bind_iff]
  constructor
  · intro survives
    refine ⟨fun result t first same => ?_, fun value t first result u second => ?_⟩
    · exact survives .panic t (.inr (.inr ⟨same ▸ first, rfl⟩)) rfl
    · exact survives result u (.inl ⟨value, t, first, second⟩)
  · rintro ⟨first, second⟩ result u (⟨value, t, begun, ended⟩ | ⟨error, -, rfl⟩ | ⟨begun, rfl⟩)
    · exact second value t begun result u ended
    · simp
    · exact absurd rfl (first .panic u begun)

theorem survives_done_bind_iff {outcome : Outcome ε α} {f : α → Prog Ans ε β} :
    Survives step (done outcome >>= f) s ↔
      outcome ≠ .panic ∧ ∀ value, outcome = .ok value → Survives step (f value) s := by
  rw [survives_bind_iff, survives_done_iff]
  refine and_congr_right fun _ => ⟨fun second value same => ?_, fun second value t first => ?_⟩
  · exact second value s (same ▸ .done _ _)
  · obtain ⟨same, rfl⟩ := exec_done_iff.mp first
    exact second value same.symm

theorem survives_ite_iff {c : Prop} [Decidable c] {p q : Prog Ans ε α} :
    Survives step (if c then p else q) s ↔ if c then Survives step p s else Survives step q s := by
  split <;> rfl

end Survives

/-! ### Conditions before and after -/

section Conditions

variable {step : σ → (op : Op) → Ans op → σ → Prop} {Inv : σ → Prop}

/-- Wherever the program is cut off, and wherever it ends, the state satisfies `Inv`; where it
returns a value, `Post` holds as well. -/
def Meets (step : σ → (op : Op) → Ans op → σ → Prop) (Inv : σ → Prop) (Post : α → σ → Prop)
    (p : Prog Ans ε α) (s : σ) : Prop :=
  ∀ result t, Exec step p s result t → Inv t ∧ ∀ value, result = some (.ok value) → Post value t

theorem meets_ok {Post : α → σ → Prop} {value : α} {s : σ} (holds : Inv s) (post : Post value s) :
    Meets step Inv Post (done (.ok value) : Prog Ans ε α) s := by
  intro result t exec
  cases exec with
  | done => exact ⟨holds, fun value same => by cases same; exact post⟩
  | cut => exact ⟨holds, fun value same => by cases same⟩

theorem meets_err {Post : α → σ → Prop} {error : ε} {s : σ} (holds : Inv s) :
    Meets step Inv Post (done (.err error) : Prog Ans ε α) s := by
  intro result t exec
  cases exec <;> exact ⟨holds, fun value same => by cases same⟩

theorem meets_call {Post : α → σ → Prop} {op : Op} {next : Ans op → Prog Ans ε α} {s : σ}
    (holds : Inv s)
    (continues : ∀ answer t, step s op answer t → Meets step Inv Post (next answer) t) :
    Meets step Inv Post (call op next) s := by
  intro result u exec
  cases exec with
  | cut => exact ⟨holds, fun value same => by cases same⟩
  | call taken rest => exact continues _ _ taken _ _ rest

theorem Meets.weaken {Post Post' : α → σ → Prop} {p : Prog Ans ε α} {s : σ}
    (meets : Meets step Inv Post p s) (weaker : ∀ value t, Post value t → Post' value t) :
    Meets step Inv Post' p s := by
  intro result t exec
  obtain ⟨holds, post⟩ := meets result t exec
  exact ⟨holds, fun value same => weaker value t (post value same)⟩

theorem Meets.bind {Mid : α → σ → Prop} {Post : β → σ → Prop} {p : Prog Ans ε α}
    {f : α → Prog Ans ε β} {s : σ} (first : Meets step Inv Mid p s)
    (second : ∀ value t, Mid value t → Meets step Inv Post (f value) t) :
    Meets step Inv Post (p >>= f) s := by
  induction p generalizing s with
  | done outcome =>
    obtain ⟨holds, mid⟩ := first _ _ (.done outcome s)
    cases outcome with
    | ok value => exact second value s (mid value rfl)
    | err error => exact meets_err holds
    | panic =>
      intro result t exec
      cases exec <;> exact ⟨holds, fun value same => by cases same⟩
  | call op next ih =>
    refine meets_call (first _ _ (.cut _ s)).1 fun answer t taken => ih answer ?_
    exact fun result u exec => first result u (.call taken exec)

/-- Programs run one after the other, each to its end or cut off. -/
inductive Serial {κ : Type} (step : σ → (op : Op) → Ans op → σ → Prop)
    (program : κ → Prog Ans ε α) : σ → List κ → σ → Prop where
  | nil (s : σ) : Serial step program s [] s
  | snoc {s t u : σ} {calls : List κ} {call : κ} {result : Option (Outcome ε α)} :
      Serial step program s calls t → Exec step (program call) t result u →
      Serial step program s (calls ++ [call]) u

theorem Serial.keeps {κ : Type} {program : κ → Prog Ans ε α} {s u : σ} {calls : List κ}
    (serial : Serial step program s calls u)
    (each : ∀ call ∈ calls, ∀ t, Inv t → Meets step Inv (fun _ _ => True) (program call) t)
    (holds : Inv s) : Inv u := by
  induction serial with
  | nil => exact holds
  | snoc earlier exec ih =>
    have before := ih fun call member => each call (List.mem_append_left _ member)
    exact (each _ (List.mem_append_right _ (List.mem_singleton_self _)) _ before _ _ exec).1

end Conditions
end Prog
end SchnorrMpc.Lib
