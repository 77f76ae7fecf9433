import SchnorrMpc.Lib.Network
import SchnorrMpc.Mpc.KeyMessages
import SchnorrMpc.Mpc.Transitions

/-!
# A group that generates a key

The honest members of a group run contexts with one identifier. Their messages
arrive late, twice or never, and the other members send what they like.
-/
namespace SchnorrMpc

open Lib

variable {run : ContextRun} {msg : MpcMessage}

namespace ContextRun

variable {kenv : KeyEnv} {cfg : Config} {run next : ContextRun}

/-- The node has sent the receiver this message of a step. -/
def Sends (run : ContextRun) (receiver : NodeID) (msg : MpcMessage) : Prop :=
  (receiver, msg) ∈ mails run.sent

theorem Moves.sends {arrives : NodeID → MpcMessage → Prop}
    (moves : Moves kenv cfg arrives run next) (receiver : NodeID) (msg : MpcMessage)
    (was : run.Sends receiver msg) : next.Sends receiver msg := by
  obtain ⟨parcel, sent, isMail⟩ := mem_mails_iff.mp was
  exact mem_mails_iff.mpr ⟨parcel, moves.sent_subset sent, isMail⟩

theorem Moves.mono {few many : NodeID → MpcMessage → Prop}
    (more : ∀ sender msg, few sender msg → many sender msg)
    (moves : Moves kenv cfg few run next) : Moves kenv cfg many run next := by
  obtain ⟨action, permits, stepped⟩ := moves
  refine ⟨action, ?_, stepped⟩
  cases action with
  | getMessage sender msg => exact more sender msg permits
  | mainMPCProcess | messageLoop | quitMpcContext | quitterSend => exact permits

end ContextRun

/-- The honest members of a group, each in its state. -/
abbrev Group := Network.World NodeID ContextRun

namespace Group

variable {kenv : KeyEnv} {cfg : Config} {members ids : List NodeID} {mpcID : Nat} {g g' : Group}
  {p : NodeID}

/-- The messages that can arrive at a node. -/
def Arrives (members : List NodeID) (g : Group) (p : NodeID) : NodeID → MpcMessage → Prop :=
  Network.Arrives (· ∈ members) ContextRun.Sends g p

def Reaches (kenv : KeyEnv) (cfg : Config) (members : List NodeID) : Group → Group → Prop :=
  Network.Reaches (ContextRun.Moves kenv cfg) (· ∈ members) ContextRun.Sends

theorem Reaches.origin (reaches : Reaches kenv cfg members g g') (here : g' p = some run) :
    ∃ start, g p = some start ∧
      ContextRun.Reaches kenv cfg (g'.Arrives members p) start run := by
  have network : Network.Reaches (ContextRun.Moves kenv cfg) _ _ g g' := reaches
  exact network.origin (fun _ _ _ moves => moves.sends) (fun more => .mono more) here

/-- A run of the group in which every move meets a condition. -/
def ReachesIf (Meets : ContextRun → Action → Prop) (kenv : KeyEnv) (cfg : Config)
    (members : List NodeID) : Group → Group → Prop :=
  Network.Reaches (ContextRun.Within Meets kenv cfg) (· ∈ members) ContextRun.Sends

section Conditions

variable {Meets : ContextRun → Action → Prop}

theorem ReachesIf.origin (reaches : ReachesIf Meets kenv cfg members g g')
    (here : g' p = some run) : ∃ start, g p = some start ∧ Relation.ReflTransGen
      (ContextRun.Within Meets kenv cfg (g'.Arrives members p)) start run := by
  have network : Network.Reaches (ContextRun.Within Meets kenv cfg) _ _ g g' := reaches
  exact network.origin (fun _ _ _ within => within.moves.sends) (fun more => .mono more) here

theorem ReachesIf.sends (reaches : ReachesIf Meets kenv cfg members g g') (here : g p = some run)
    {receiver : NodeID} (sent : run.Sends receiver msg) :
    ∃ final, g' p = some final ∧ final.Sends receiver msg := by
  have network : Network.Reaches (ContextRun.Within Meets kenv cfg) _ _ g g' := reaches
  obtain ⟨final, there, path⟩ :=
    network.project (fun _ _ _ within => within.moves.sends) (fun more => .mono more) here
  refine ⟨final, there, ?_⟩
  clear there here
  induction path with
  | refl => exact sent
  | tail _ last ih => exact last.moves.sends receiver msg ih

/-- On the way from `g` to `g'`, node `p` finishes step `i` in its move from `u` to `v`. -/
structure Finishing (Meets : ContextRun → Action → Prop) (kenv : KeyEnv) (cfg : Config)
    (members : List NodeID) (g g' : Group) (p : NodeID) (i : Nat) (u v : ContextRun) : Prop where
  isPc : u.pc = .finishStep i
  isNext : v.pc = .initStep (i + 1)
  path : ∃ h : Group, ReachesIf Meets kenv cfg members g h ∧ h p = some u ∧
    ContextRun.Within Meets kenv cfg (h.Arrives members p) u v ∧
    ReachesIf Meets kenv cfg members (Function.update h p (some v)) g'

end Conditions

/-- Every honest member is about to run a key generation with these peers. -/
structure Generates (cfg : Config) (members ids : List NodeID) (mpcID : Nat) (g : Group) :
    Prop where
  covers : ∀ q ∈ members, q ∈ ids
  starts : ∀ p run, g p = some run → p ∈ members ∧ ∃ srv, ∃ leader : Bool, ∃ peers ctx,
    run = .start srv ctx ∧ srv.self = p ∧ peers.map PeerInfo.peerID = ids ∧
    createContext cfg (if leader then .mpcGPKLeader else .mpcGPKPeer) mpcID peers [] = .ok ctx

/-- What an honest node has heard comes from a member, and from an honest one only what that has
sent to the node. -/
theorem mem_of_heard (here : g p = some run) (isSelf : run.srv.self = p) (member : p ∈ members)
    {q : NodeID} (heard : run.view.Heard (g.Arrives members p) q msg) :
    q ∈ members ∧ ∀ other, g q = some other → other.Sends p msg := by
  rcases heard with arrived | ⟨own, mailed⟩
  · exact arrived
  · obtain rfl : q = p := own.trans isSelf
    refine ⟨member, fun other found => ?_⟩
    obtain rfl := Option.some.inj (here.symm.trans found)
    simp only [ContextRun.view, isSelf] at mailed
    exact mailed

end Group
end SchnorrMpc
