import SchnorrMpc.Mpc.Registry
import SchnorrMpc.Properties.Requests

/-!
# One context for each id

A context stays in the map of contexts under its id, from when its call adds it
until the same call removes it, as long as no context is added under an id that
is in use.
-/
namespace SchnorrMpc

open Lib Prog

abbrev ServerEvent := Event ServerAns ServerCall

namespace ServerCall

/-- A call remembers the id under which its context is in the map. -/
def note (_ : ServerCall) (registered : Option Nat) : (op : ServerOp) → ServerAns op → Option Nat
  | .addMpcContext mpcID _, _ => some mpcID
  | .removeMpcContext _, _ => none
  | _, _ => registered

/-- A call adds its own context, and removes the id that it has added. -/
def May (call : ServerCall) (registered : Option Nat) : ServerOp → Prop
  | .addMpcContext _ ticket => ticket = call.ticket ∧ registered = none
  | .removeMpcContext mpcID => registered = some mpcID
  | _ => True

end ServerCall

/-- The id under which the call has added its context and has not removed it yet. -/
def registration (trace : List ServerEvent) (call : ServerCall) : Option Nat :=
  Threads.remember ServerCall.note none trace call

/-- Whenever a context is added, no other call has one under the same id. -/
def Exclusive (trace : List ServerEvent) : Prop :=
  ∀ before call mpcID ticket answer after,
    trace = before ++ ⟨call, .addMpcContext mpcID ticket, answer⟩ :: after →
    ∀ other, registration before other ≠ some mpcID

theorem Exclusive.init {trace : List ServerEvent} {event : ServerEvent}
    (exclusive : Exclusive (trace ++ [event])) : Exclusive trace := by
  intro before call mpcID ticket answer after split
  exact exclusive before call mpcID ticket answer (after ++ [event]) (by rw [split]; simp)

/-- The same, checked at every place for the calls of the trace. -/
def exclusiveCheck (trace : List ServerEvent) : Bool :=
  (List.range trace.length).all fun i =>
    match (trace)[i]? with
    | some ⟨_, .addMpcContext mpcID _, _⟩ =>
      trace.all fun event => registration (trace.take i) event.call ≠ some mpcID
    | _ => true

theorem exclusive_of_check {trace : List ServerEvent} (checked : exclusiveCheck trace = true) :
    Exclusive trace := by
  intro before call mpcID ticket answer after split other registered
  have place : (trace)[before.length]? = some ⟨call, .addMpcContext mpcID ticket, answer⟩ := by
    simp [split]
  have earlier : trace.take before.length = before := by simp [split]
  have inside : before.length < trace.length := by simp [split]
  have here := List.all_eq_true.mp checked before.length (List.mem_range.mpr inside)
  simp only [place, earlier, List.all_eq_true, decide_eq_true_eq] at here
  by_cases silent : ∀ event ∈ before, event.call ≠ other
  · rw [registration, Threads.remember_of_silent _ _ silent] at registered
    cases registered
  · push Not at silent
    obtain ⟨event, member, rfl⟩ := silent
    exact here event (by rw [split]; exact List.mem_append_left _ member) registered

/-! ### What each call does -/

section Conforms

variable {call : ServerCall}

theorem conforms_embed {α : Type} (p : NodeM α) (registered : Option Nat) :
    Conforms call.note call.May (fun after _ => after = registered) registered
      (ServerM.embed p) := by
  induction p with
  | done result => exact rfl
  | call op next ih => exact ⟨trivial, fun answer => ih answer⟩

theorem conforms_runContext (mpcID : Nat) :
    Conforms call.note call.May (fun _ _ => True) none
      (ServerM.runContext mpcID call.ticket) :=
  ⟨⟨rfl, rfl⟩, fun _ => ⟨trivial, fun _ => ⟨rfl, fun _ => trivial⟩⟩⟩

theorem ServerCall.conforms (venv : ValEnv) (cfg : Config) (call : ServerCall) :
    Conforms call.note call.May (fun _ _ => True) none (call.program venv cfg) := by
  unfold ServerCall.program
  cases call.request with
  | requestMPC srv msg polls =>
    refine .bind (conforms_embed _ none) ?_ (fun _ _ _ => trivial) (fun _ _ => trivial)
    rintro _ ctx rfl
    exact conforms_runContext _
  | createRequestMpcContext srv draws failure request =>
    refine .bind (conforms_embed _ none) ?_ (fun _ _ _ => trivial) (fun _ _ => trivial)
    rintro _ mpcID rfl
    refine .bind (conforms_embed _ none) ?_ (fun _ _ _ => trivial) (fun _ _ => trivial)
    rintro _ ctx rfl
    exact conforms_runContext _
  | getMpcMessage contextID => exact ⟨trivial, fun _ => trivial⟩
  | quitMpcContext contextID => exact ⟨trivial, fun _ => trivial⟩

end Conforms

/-! ### The map in a run -/

/-- Registered contexts are in the map, and every lookup so far has found the context that was
registered under the id. -/
structure Found (calls : List ServerCall) (trace : List ServerEvent) (mpcMap : MpcMap) : Prop where
  known : ∀ call mpcID, registration trace call = some mpcID → call ∈ calls
  stays : ∀ call mpcID, registration trace call = some mpcID → mpcMap mpcID = some call.ticket
  lookups : ∀ before call mpcID answer after,
    trace = before ++ ⟨call, .findContext mpcID, answer⟩ :: after →
    ∀ owner, registration before owner = some mpcID → answer = some owner.ticket

section Step

variable {calls : List ServerCall} {trace : List ServerEvent} {mpcMap : MpcMap}

theorem registration_own (trace : List ServerEvent) (call : ServerCall) (op : ServerOp)
    (answer : ServerAns op) : registration (trace ++ [⟨call, op, answer⟩]) call =
      call.note (registration trace call) op answer :=
  Threads.remember_own _ _ _ _ _ _

theorem registration_other (trace : List ServerEvent) {event : ServerEvent} {call : ServerCall}
    (other : event.call ≠ call) : registration (trace ++ [event]) call = registration trace call :=
  Threads.remember_other _ _ _ other

section

variable (found : Found calls trace mpcMap)

include found

/-- Lookups that were answered before stay answered. -/
theorem Found.earlier {event : ServerEvent}
    (last : ∀ call mpcID answer, event = ⟨call, .findContext mpcID, answer⟩ → ∀ owner,
      registration trace owner = some mpcID → answer = some owner.ticket) :
    ∀ before call mpcID answer after,
      trace ++ [event] = before ++ ⟨call, .findContext mpcID, answer⟩ :: after →
      ∀ owner, registration before owner = some mpcID → answer = some owner.ticket := by
  intro before call mpcID answer after split owner registered
  rcases List.eq_nil_or_concat after with rfl | ⟨after, final, rfl⟩
  · obtain ⟨rfl, same⟩ := List.append_inj' split rfl
    exact last call mpcID answer (List.cons.inj same).1 owner registered
  · rw [List.concat_eq_append, ← List.cons_append, ← List.append_assoc] at split
    obtain ⟨earlier, -⟩ := List.append_inj' split rfl
    exact found.lookups before call mpcID answer after earlier owner registered

/-- An operation that leaves the map and its caller's registration as they are. -/
theorem Found.frame {call : ServerCall} {op : ServerOp} {answer : ServerAns op}
    (same : call.note (registration trace call) op answer = registration trace call)
    (last : ∀ finder mpcID answer', (⟨call, op, answer⟩ : ServerEvent) =
      ⟨finder, .findContext mpcID, answer'⟩ → answer' = mpcMap mpcID) :
    Found calls (trace ++ [⟨call, op, answer⟩]) mpcMap := by
  have kept (other : ServerCall) :
      registration (trace ++ [⟨call, op, answer⟩]) other = registration trace other := by
    by_cases own : call = other
    · subst own
      rw [registration_own, same]
    · exact registration_other trace own
  refine ⟨fun other mpcID => ?_, fun other mpcID => ?_, found.earlier ?_⟩
  · rw [kept]
    exact found.known other mpcID
  · rw [kept]
    exact found.stays other mpcID
  · intro finder mpcID answer' isFind owner registered
    rw [← found.stays owner mpcID registered]
    exact last finder mpcID answer' isFind

/-- Every operation of a call keeps the registered contexts in the map, if none is added under an
id that is in use. -/
theorem Found.step (tickets : (calls.map ServerCall.ticket).Nodup) {call : ServerCall}
    {op : ServerOp} {answer : ServerAns op} {after : MpcMap} (member : call ∈ calls)
    (may : call.May (registration trace call) op) (taken : MpcMap.Step mpcMap op answer after)
    (exclusive : Exclusive (trace ++ [⟨call, op, answer⟩])) :
    Found calls (trace ++ [⟨call, op, answer⟩]) after := by
  have known (other : ServerCall) (otherID : Nat)
      (registered : registration (trace ++ [⟨call, op, answer⟩]) other = some otherID) :
      other ∈ calls := by
    by_cases own : call = other
    · exact own ▸ member
    · exact found.known other otherID ((registration_other trace own).symm.trans registered)
  cases taken with
  | contextExists | loadStoremanAddress | db | mainMPCProcess =>
    exact found.frame rfl fun _ _ _ isFind => by cases isFind
  | findContext mpcID =>
    refine found.frame rfl fun _ _ _ isFind => ?_
    cases isFind
    rfl
  | addMpcContext mpcID ticket =>
    obtain ⟨rfl, -⟩ := may
    have free := exclusive trace call mpcID call.ticket () [] rfl
    refine ⟨known, fun other otherID registered => ?_,
      found.earlier fun _ _ _ isFind => by cases isFind⟩
    by_cases own : call = other
    · subst own
      rw [registration_own] at registered
      cases registered
      exact Function.update_self ..
    -- the id was free, so the other context is under another one
    · have before := (registration_other trace own).symm.trans registered
      have otherID_ne : otherID ≠ mpcID := by
        rintro rfl
        exact free other before
      rw [Function.update_of_ne otherID_ne]
      exact found.stays other otherID before
  | removeMpcContext mpcID =>
    have mine := found.stays call mpcID may
    refine ⟨known, fun other otherID registered => ?_,
      found.earlier fun _ _ _ isFind => by cases isFind⟩
    by_cases own : call = other
    · subst own
      rw [registration_own] at registered
      cases registered
    · have before := (registration_other trace own).symm.trans registered
      have stored := found.stays other otherID before
      -- Under one id the map has one ticket, so the id of another context is another id.
      have otherID_ne : otherID ≠ mpcID := by
        rintro rfl
        have sameTicket := Option.some.inj (mine.symm.trans stored)
        exact own
          (List.inj_on_of_nodup_map tickets member (found.known other _ before) sameTicket)
      rw [Function.update_of_ne otherID_ne]
      exact stored

end

end Step

/-- In every run of the calls of a node in which no context is added under an id that is in use,
every context stays in the map from when it is added until its own call removes it, and every
message for it is given to it. -/
theorem registered_contexts_stay (venv : ValEnv) (cfg : Config) (trace : List ServerEvent)
    (t : Threads ServerAns Err Unit MpcMap ServerCall)
    (runs : Threads.Runs MpcMap.Step (ServerCall.program venv cfg) (fun _ => none) trace t)
    (tickets : (t.calls.started.map ServerCall.ticket).Nodup) (exclusive : Exclusive trace) :
    (∀ call mpcID, registration trace call = some mpcID → t.state mpcID = some call.ticket) ∧
      ∀ before call mpcID answer after,
        trace = before ++ ⟨call, .findContext mpcID, answer⟩ :: after →
        ∀ owner, registration before owner = some mpcID → answer = some owner.ticket := by
  let Inv (trace : List ServerEvent) (mpcMap : MpcMap) : Prop :=
    Exclusive trace → Found t.calls.started trace mpcMap
  have found : Inv trace t.state := by
    refine runs.invariant (List.Nodup.of_map _ tickets) (fun _ started => started)
      (fun call _ => call.conforms venv cfg) ?_ ?_
    · intro _
      refine ⟨fun _ _ registered => ?_, fun _ _ registered => ?_, fun before _ _ _ _ split => ?_⟩
      · cases registered
      · cases registered
      · simp at split
    · intro trace u call op answer u' member may kept taken exclusive
      exact (kept exclusive.init).step tickets member may taken exclusive
  exact ⟨(found exclusive).stays, (found exclusive).lookups⟩

/-! ### One request twice -/

/-- A leader's request reaches the node twice, and then a message of the context. -/
def repeatedCalls : List ServerCall :=
  [⟨0, .requestMPC idleServer plainRequest 0⟩, ⟨1, .requestMPC idleServer plainRequest 0⟩,
    ⟨2, .getMpcMessage 7⟩]

def repeatedRun (places : List Nat) :
    List ServerEvent × Threads ServerAns Err Unit MpcMap ServerCall :=
  Threads.follow MpcMap.handle (ServerCall.program sampleEnv.toValEnv ⟨2, 2⟩) (fun _ => none)
    (repeatedCalls.map .start ++ places.map .perform)

private theorem repeatedRun_runs (places : List Nat) :
    Threads.Runs MpcMap.Step (ServerCall.program sampleEnv.toValEnv ⟨2, 2⟩) (fun _ => none)
      (repeatedRun places).1 (repeatedRun places).2 :=
  Threads.runs_follow MpcMap.handle_step _

/-- Both requests pass the check before either context is added. The second context takes the
place of the first, and when it ends nothing is left for the first one, which still runs. -/
theorem repeated_request_unregisters :
    ∃ trace t, Threads.Runs MpcMap.Step (ServerCall.program sampleEnv.toValEnv ⟨2, 2⟩)
        (fun _ => none) trace t ∧
      (t.calls.started.map ServerCall.ticket).Nodup ∧
      ∃ owner ∈ t.calls.started, registration trace owner = some 7 ∧ t.state 7 = none ∧
        ∃ before finder, trace = before ++ [⟨finder, .findContext 7, none⟩] ∧
          registration before owner = some 7 := by
  refine ⟨_, _, repeatedRun_runs [0, 1, 0, 1, 1, 1, 2], by decide +kernel,
    ⟨0, .requestMPC idleServer plainRequest 0⟩, by decide +kernel, by decide +kernel,
    by decide +kernel, (repeatedRun [0, 1, 0, 1, 1, 1]).1, ⟨2, .getMpcMessage 7⟩, rfl,
    by decide +kernel⟩

/-- The second request is too late: the message is given to the context of the first. -/
theorem registered_contexts_stay_once :
    ∃ before : List ServerEvent, ∃ answer,
      (repeatedRun [0, 0, 1, 2]).1 = before ++ [⟨⟨2, .getMpcMessage 7⟩, .findContext 7, answer⟩] ∧
      answer = some 0 := by
  have stays := registered_contexts_stay sampleEnv.toValEnv ⟨2, 2⟩ _ _
    (repeatedRun_runs [0, 0, 1, 2]) (by decide +kernel) (exclusive_of_check (by decide +kernel))
  refine ⟨(repeatedRun [0, 0, 1]).1, _, rfl, ?_⟩
  exact stays.2 (repeatedRun [0, 0, 1]).1 _ 7 _ [] rfl
    ⟨0, .requestMPC idleServer plainRequest 0⟩ (by decide +kernel)

end SchnorrMpc
