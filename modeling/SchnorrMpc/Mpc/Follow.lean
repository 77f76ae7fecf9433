import SchnorrMpc.Mpc.Run

/-!
# Following a list of actions

A run can be computed from the actions it is made of. What its moves permit is
decidable, so the computed run is one that the node can take.
-/
namespace SchnorrMpc

open Lib S256

instance (random : Randomness) : Decidable random.Admissible :=
  have drawn : Decidable (∀ s, random.s = .ok s → 0 ≤ s ∧ s < (N : Int)) :=
    match random.s with
    | .ok s => decidable_of_iff (0 ≤ s ∧ s < (N : Int)) (by simp)
    | .error _ => isTrue (by simp)
  inferInstanceAs (Decidable (_ ∧ _))

instance (body : StepBody) (orders : Orders) : Decidable (body.Iterates orders) :=
  have single (message : Assoc Nat Int) :
      Decidable (∃ order, orders.scalars = [order] ∧ order.Perm message) :=
    match orders.scalars with
    | [order] => decidable_of_iff (order.Perm message) (by simp)
    | [] | _ :: _ :: _ => isFalse (by simp)
  match body with
  | .skShare poly | .rskShare poly => single poly.message
  | .gpk ptStep | .r ptStep =>
    inferInstanceAs (Decidable (List.Forall₂ _ orders.points ptStep.messages))
  | .s msStep => inferInstanceAs (Decidable (List.Forall₂ _ orders.scalars msStep.messages))
  | .request _ | .ackMpc _ | .ready | .getReady | .ackGPK _ | .ackRS _ => isTrue trivial

namespace ContextRun

/-- The choice is one that the main process can meet with where it is. -/
def decidePermitsMain (arrives : NodeID → MpcMessage → Prop) (run : ContextRun) (choice : Choice) :
    (pc : Pc) → run.pc = pc → Decidable (run.Permits arrives (.mainMPCProcess choice))
  | .initStep _, isPc => decidable_of_iff choice.random.Admissible (by simp [Permits, isPc])
  | .finishStep i, isPc =>
    match found : run.ctx.mpcSteps[i]? with
    | some step => decidable_of_iff (step.body.Iterates choice.orders)
        (by simp [Permits, isPc, found])
    | none => isTrue (by simp [Permits, isPc, found])
  | .initMessageLoop _, isPc | .sending .., isPc | .waiting _, isPc | .stopping .., isPc
  | .failing .., isPc | .quit _, isPc | .quitting .., isPc | .returned _, isPc | .panicked, isPc =>
    isTrue (by simp [Permits, isPc])

instance (check : NodeID → MpcMessage → Bool) (run : ContextRun) (action : Action) :
    Decidable (run.Permits (fun sender msg => check sender msg = true) action) :=
  match action with
  | .mainMPCProcess choice => decidePermitsMain _ run choice run.pc rfl
  | .getMessage sender msg => inferInstanceAs (Decidable (check sender msg = true))
  | .messageLoop _ | .quitMpcContext _ | .quitterSend => isTrue trivial

/-- Take the actions one after the other; messages come in only if they pass the check. -/
def follow (kenv : KeyEnv) (cfg : Config) (check : NodeID → MpcMessage → Bool) :
    List Action → ContextRun → Option ContextRun
  | [], run => some run
  | action :: actions, run =>
    if run.Permits (fun sender msg => check sender msg = true) action then
      match run.step kenv cfg action with
      | some next => follow kenv cfg check actions next
      | none => none
    else none

theorem reaches_of_follow {kenv : KeyEnv} {cfg : Config} {check : NodeID → MpcMessage → Bool}
    {arrives : NodeID → MpcMessage → Prop}
    (sound : ∀ sender msg, check sender msg = true → arrives sender msg) {actions : List Action}
    {run final : ContextRun} (followed : follow kenv cfg check actions run = some final) :
    Reaches kenv cfg arrives run final := by
  induction actions generalizing run with
  | nil =>
    cases followed
    exact .refl
  | cons action actions ih =>
    unfold follow at followed
    split at followed
    next permits =>
      split at followed
      next next stepped =>
        refine .head ⟨action, ?_, stepped⟩ (ih followed)
        cases action with
        | getMessage sender msg => exact sound sender msg permits
        | mainMPCProcess | messageLoop | quitMpcContext | quitterSend => exact permits
      next => cases followed
    next => cases followed

end ContextRun

/-! ### Parts of such lists -/

/-- The choice of a node that draws this scalar and these numbers. -/
def Choice.plain (s : Int) (intn : List Nat) : Choice where
  random := ⟨.ok s, [], intn.map (Fin.ofNat 0x0FFFFFE)⟩
  orders := ⟨[], []⟩
  timeOut := false
  draw := ⟨[], ⟨[], []⟩, ⟨[], []⟩, [], .ok ()⟩

/-- The main process goes on for this many moves. -/
def Choice.moves (choice : Choice) (n : Nat) : List Action :=
  List.replicate n (.mainMPCProcess choice)

def Choice.timesOut (choice : Choice) : List Action :=
  [.mainMPCProcess { choice with timeOut := true }]

/-- A message comes in and is handled. -/
def hears (sender : NodeID) (msg : MpcMessage) : List Action :=
  [.getMessage sender msg, .messageLoop msg.stepID]

end SchnorrMpc
