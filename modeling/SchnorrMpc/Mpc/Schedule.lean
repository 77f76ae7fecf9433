import SchnorrMpc.Mpc.Follow
import SchnorrMpc.Mpc.Group

/-!
# Following a schedule

A run of a group can be computed from a schedule, in which the honest members
take turns. A message from one of them comes in only if it has been sent.
-/
namespace SchnorrMpc

open Lib

namespace Group

variable {members : List NodeID} {nodes final : Assoc NodeID ContextRun} {kenv : KeyEnv}
  {cfg : Config} {turns : List (NodeID × List Action)}

/-- The honest members that are listed. -/
def ofList (nodes : Assoc NodeID ContextRun) : Group := fun p => nodes.lookup p

theorem ofList_assign (nodes : Assoc NodeID ContextRun) (p : NodeID) (run : ContextRun) :
    ofList (Assoc.assign nodes p run) = Function.update (ofList nodes) p (some run) := by
  funext q
  simp only [ofList, Assoc.lookup_assign, Function.update_apply]

/-- Whether a message can arrive at a node. -/
def comes (members : List NodeID) (nodes : Assoc NodeID ContextRun) (p sender : NodeID)
    (msg : MpcMessage) : Bool :=
  decide (sender ∈ members) &&
    match nodes.lookup sender with
    | none => true
    | some run => decide ((p, msg) ∈ mails run.sent)

theorem arrives_of_comes {p sender : NodeID} {msg : MpcMessage}
    (passes : comes members nodes p sender msg = true) :
    (ofList nodes).Arrives members p sender msg := by
  rw [comes, Bool.and_eq_true] at passes
  refine ⟨of_decide_eq_true passes.1, fun run found => ?_⟩
  have sent := passes.2
  simp only [ofList] at found
  rw [found] at sent
  simpa [ContextRun.Sends] using sent

/-- Take turns, each a list of actions of one member. -/
def follow (kenv : KeyEnv) (cfg : Config) (members : List NodeID) :
    List (NodeID × List Action) → Assoc NodeID ContextRun → Option (Assoc NodeID ContextRun)
  | [], nodes => some nodes
  | (p, actions) :: turns, nodes =>
    match nodes.lookup p with
    | none => none
    | some run =>
      match ContextRun.follow kenv cfg (comes members nodes p) actions run with
      | none => none
      | some next => follow kenv cfg members turns (Assoc.assign nodes p next)

theorem reaches_of_follow (followed : follow kenv cfg members turns nodes = some final) :
    Reaches kenv cfg members (ofList nodes) (ofList final) := by
  induction turns generalizing nodes with
  | nil =>
    cases followed
    exact .refl
  | cons turn turns ih =>
    obtain ⟨p, actions⟩ := turn
    unfold follow at followed
    split at followed
    next => cases followed
    next run found =>
      split at followed
      next => cases followed
      next next taken =>
        have alone := ContextRun.reaches_of_follow (fun _ _ => arrives_of_comes) taken
        have first : Reaches kenv cfg members (ofList nodes)
            (Function.update (ofList nodes) p (some next)) :=
          Network.Reaches.of_node (fun _ _ _ moves => moves.sends) (fun more => .mono more) found
            alone
        rw [← ofList_assign] at first
        exact first.trans (ih followed)

/-- The same, as long as every action meets a condition. -/
def replay (kenv : KeyEnv) (cfg : Config) (Meets : ContextRun → Action → Prop)
    [∀ run action, Decidable (Meets run action)] (members : List NodeID) :
    List (NodeID × List Action) → Assoc NodeID ContextRun → Option (Assoc NodeID ContextRun)
  | [], nodes => some nodes
  | (p, actions) :: turns, nodes =>
    match nodes.lookup p with
    | none => none
    | some run =>
      match ContextRun.replay kenv cfg (fun run action => Meets run action ∧
          ∀ entry ∈ action.arrival, comes members nodes p entry.1 entry.2 = true) actions run with
      | none => none
      | some next => replay kenv cfg Meets members turns (Assoc.assign nodes p next)

theorem reachesIf_of_replay {Meets : ContextRun → Action → Prop}
    [∀ run action, Decidable (Meets run action)]
    (replayed : replay kenv cfg Meets members turns nodes = some final) :
    ReachesIf Meets kenv cfg members (ofList nodes) (ofList final) := by
  induction turns generalizing nodes with
  | nil =>
    cases replayed
    exact .refl
  | cons turn turns ih =>
    obtain ⟨p, actions⟩ := turn
    unfold replay at replayed
    split at replayed
    next => cases replayed
    next run found =>
      split at replayed
      next => cases replayed
      next next taken =>
        have alone : Relation.ReflTransGen
            (ContextRun.Within Meets kenv cfg ((ofList nodes).Arrives members p)) run next :=
          ContextRun.within_of_replay (fun _ _ meets => meets.1)
            (fun _ sender msg meets =>
              arrives_of_comes (meets.2 (sender, msg) (List.mem_singleton_self _))) taken
        have first : ReachesIf Meets kenv cfg members (ofList nodes)
            (Function.update (ofList nodes) p (some next)) :=
          Network.Reaches.of_node (fun _ _ _ within => within.moves.sends) (fun more => .mono more)
            found alone
        rw [← ofList_assign] at first
        exact first.trans (ih replayed)

end Group
end SchnorrMpc
