import SchnorrMpc.Lib.Network
import SchnorrMpc.Mpc.Request
import SchnorrMpc.Mpc.Transitions

/-!
# A group of nodes and its mail

One context on every node of a group, from the request of the leader until the
context is removed from `mpcMap`. The network delivers every parcel once, at any
time and in any order, and no time runs out. A message for which there is no
context in the map is dropped.
-/
namespace SchnorrMpc

open Lib

/-- A parcel on its way, with its number among those that the sender has sent. -/
structure Letter where
  sender : NodeID
  number : Nat
  parcel : Parcel
  deriving DecidableEq, Repr

/-- What a node has of the context. -/
inductive Member where
  | idle (srv : MpcDistributor)
  /-- `CreateContext` has returned, and `addMpcContext` is still to come. -/
  | created (srv : MpcDistributor) (ctx : MpcContext)
  /-- The context is in `mpcMap`. -/
  | registered (run : ContextRun)
  | removed (run : ContextRun)

namespace Member

def srv : Member → MpcDistributor
  | idle srv | created srv _ => srv
  | registered run | removed run => run.srv

def sent : Member → List Parcel
  | idle _ | created _ _ => []
  | registered run | removed run => run.sent

/-- The context that `mpcMap` has under this id. -/
def find (member : Member) (contextID : Nat) : Option ContextRun :=
  match member with
  | registered run => if run.ctx.contextID = contextID then some run else none
  | idle _ | created _ _ | removed _ => none

end Member

/-- `createMpcCtx` for a request that asks for nothing but the map of contexts. -/
def answerRequest (venv : ValEnv) (cfg : Config) (srv : MpcDistributor) (exist : Bool)
    (msg : MpcMessage) : Option (Go MpcContext) :=
  match createMpcCtx venv cfg srv msg 0 with
  | .call (.contextExists _) next =>
    match next exist with
    | .done result => some result
    | .call _ _ => none
  | _ => none

/-- The answer to a request. That a second request finds a context which is not in the map yet, or
not any more, is left out. -/
def Member.requestMPC (venv : ValEnv) (cfg : Config) (member : Member) (msg : MpcMessage) :
    Option Member :=
  match member with
  | idle srv =>
    match answerRequest venv cfg srv false msg with
    | some (.ok ctx) => some (created srv ctx)
    | some (.err _) => some member
    | _ => none
  | registered run =>
    match answerRequest venv cfg run.srv true msg with
    | some (.err _) => some member
    | _ => none
  | created _ _ | removed _ => none

/-- A node with the letters that have arrived, and those of them that its context has got. -/
structure Node where
  member : Member
  taken : List Letter
  heard : List Letter

def Node.take (env : NodeEnv) (cfg : Config) (node : Node) (letter : Letter) : Option Node :=
  let node := { node with taken := node.taken ++ [letter] }
  let msg := letter.parcel.msg
  match letter.parcel.msgCode with
  | .requestMPC =>
    (node.member.requestMPC env.toValEnv cfg msg).map fun member => { node with member }
  | .mpcMessage =>
    match node.member.find msg.contextID with
    | none => some node
    | some run => (run.step env.toKeyEnv cfg (.getMessage letter.sender msg)).map fun next =>
        { node with member := .registered next, heard := node.heard ++ [letter] }
  | .mpcError =>
    match node.member.find msg.contextID with
    | none => some node
    | some run =>
      if run.ctx.bQuit then some node
      else (run.step env.toKeyEnv cfg (.quitMpcContext msg.peers)).map fun next =>
        { node with member := .registered next }

/-- What happens on a node without a letter, and in time. -/
def Action.Internal : Action → Prop
  | .mainMPCProcess choice => choice.timeOut = false
  | .messageLoop _ | .quitterSend => True
  | .getMessage _ _ | .quitMpcContext _ => False

instance (action : Action) : Decidable action.Internal :=
  match action with
  | .mainMPCProcess choice => inferInstanceAs (Decidable (choice.timeOut = false))
  | .messageLoop _ | .quitterSend => isTrue trivial
  | .getMessage _ _ | .quitMpcContext _ => isFalse id

namespace Node

inductive Moves (env : NodeEnv) (cfg : Config) (arrives : NodeID → Nat × Parcel → Prop)
    (node : Node) : Node → Prop where
  | register {srv : MpcDistributor} {ctx : MpcContext} (isMember : node.member = .created srv ctx) :
      Moves env cfg arrives node { node with member := .registered (.start srv ctx) }
  | act {run next : ContextRun} {action : Action} (isMember : node.member = .registered run)
      (internal : action.Internal) (permits : run.Permits (fun _ _ => True) action)
      (stepped : run.step env.toKeyEnv cfg action = some next) :
      Moves env cfg arrives node { node with member := .registered next }
  | remove {run : ContextRun} {result : Option Err} (isMember : node.member = .registered run)
      (returned : run.pc = .returned result) :
      Moves env cfg arrives node { node with member := .removed run }
  | take {letter : Letter} {next : Node}
      (comes : arrives letter.sender (letter.number, letter.parcel)) (once : letter ∉ node.taken)
      (took : node.take env cfg letter = some next) : Moves env cfg arrives node next

/-- The node has sent this parcel as this number to the receiver, who is another node. -/
def Sends (node : Node) (receiver : NodeID) (item : Nat × Parcel) : Prop :=
  node.member.sent[item.1]? = some item.2 ∧ item.2.receiver = receiver ∧
    receiver ≠ node.member.srv.self

end Node

/-! ### Deployments -/

abbrev Deployment := Network.World NodeID Node

namespace Deployment

def Moves (env : NodeEnv) (cfg : Config) (group : List NodeID) : Deployment → Deployment → Prop :=
  Network.Moves (Node.Moves env cfg) (· ∈ group) Node.Sends

def Reaches (env : NodeEnv) (cfg : Config) (group : List NodeID) :
    Deployment → Deployment → Prop :=
  Network.Reaches (Node.Moves env cfg) (· ∈ group) Node.Sends

/-- The letter has been sent to the node and has not arrived. -/
def InFlight (d : Deployment) (p : NodeID) (letter : Letter) : Prop :=
  (∃ node, d letter.sender = some node ∧ node.Sends p (letter.number, letter.parcel)) ∧
    ∀ node, d p = some node → letter ∉ node.taken

def Quiet (env : NodeEnv) (cfg : Config) (group : List NodeID) (d : Deployment) : Prop :=
  ∀ d', ¬Moves env cfg group d d'

/-- The distributor of a node that is configured with the group, in any order. -/
def Configured (group : List NodeID) (p : NodeID) (srv : MpcDistributor) : Prop :=
  srv.self = p ∧ ∃ raw : MpcDistributor, raw.storeManGroup.Perm group ∧ srv = raw.initStoreManGroup

/-- The leader has created its context for a key generation, and the others know of nothing. -/
structure Starts (cfg : Config) (group : List NodeID) (leader : NodeID) (mpcID : Nat)
    (d : Deployment) : Prop where
  distinct : group.Nodup
  member : leader ∈ group
  leads : ∃ srv ctx, d leader = some ⟨.created srv ctx, [], []⟩ ∧ Configured group leader srv ∧
    createRequestGPK cfg srv mpcID = .ok ctx
  follows : ∀ p ∈ group, p ≠ leader →
    ∃ srv, d p = some ⟨.idle srv, [], []⟩ ∧ Configured group p srv
  nobody : ∀ p, p ∉ group → d p = none

/-! ### Following a schedule -/

/-- What a node does in its turn. -/
inductive Turn where
  | register
  | act (action : Action)
  | remove
  /-- The parcel with this number of this sender arrives. -/
  | take (sender : NodeID) (number : Nat)

def ofList (nodes : Assoc NodeID Node) : Deployment := fun p => nodes.lookup p

def turn (env : NodeEnv) (cfg : Config) (group : List NodeID) (nodes : Assoc NodeID Node)
    (p : NodeID) (node : Node) (turn : Turn) : Option Node :=
  match turn, node.member with
  | .register, .created srv ctx => some { node with member := .registered (.start srv ctx) }
  | .act action, .registered run =>
    if action.Internal ∧ run.Permits (fun _ _ => true = true) action then
      (run.step env.toKeyEnv cfg action).map fun next => { node with member := .registered next }
    else none
  | .remove, .registered run =>
    match run.pc with
    | .returned _ => some { node with member := .removed run }
    | _ => none
  | .take sender number, _ =>
    match nodes.lookup sender with
    | none => none
    | some other =>
      match other.member.sent[number]? with
      | none => none
      | some parcel =>
        if sender ∈ group ∧ parcel.receiver = p ∧ p ≠ other.member.srv.self ∧
            ⟨sender, number, parcel⟩ ∉ node.taken then
          node.take env cfg ⟨sender, number, parcel⟩
        else none
  | _, _ => none

theorem moves_of_turn {env : NodeEnv} {cfg : Config} {group : List NodeID}
    {nodes : Assoc NodeID Node} {p : NodeID} {node next : Node} {t : Turn}
    (turned : turn env cfg group nodes p node t = some next) :
    node.Moves env cfg (Network.Arrives (· ∈ group) Node.Sends (ofList nodes) p) next := by
  unfold turn at turned
  split at turned
  next srv ctx isMember =>
    cases turned
    exact .register isMember
  next action run isMember =>
    split at turned
    next allowed =>
      obtain ⟨after, stepped, rfl⟩ := Option.map_eq_some_iff.mp turned
      exact .act isMember allowed.1 (allowed.2.mono fun _ _ _ => trivial) stepped
    next => cases turned
  next run isMember =>
    split at turned
    next result returned =>
      cases turned
      exact .remove isMember returned
    next => cases turned
  next sender number =>
    split at turned
    next => cases turned
    next other found =>
      split at turned
      next => cases turned
      next parcel isParcel =>
        split at turned
        next allowed =>
          -- in flight, and for this node
          obtain ⟨member, isReceiver, away, once⟩ := allowed
          refine @Node.Moves.take _ _ _ _ ⟨sender, number, parcel⟩ _ ⟨member, fun t there => ?_⟩
            once turned
          cases found.symm.trans there
          exact ⟨isParcel, isReceiver, away⟩
        next => cases turned
  next => cases turned

/-- The nodes take their turns. -/
def follow (env : NodeEnv) (cfg : Config) (group : List NodeID) :
    List (NodeID × Turn) → Assoc NodeID Node → Option (Assoc NodeID Node)
  | [], nodes => some nodes
  | (p, t) :: turns, nodes =>
    match nodes.lookup p with
    | none => none
    | some node =>
      match turn env cfg group nodes p node t with
      | none => none
      | some next => follow env cfg group turns (Assoc.assign nodes p next)

section

variable {env : NodeEnv} {cfg : Config} {group : List NodeID} {turns : List (NodeID × Turn)}
  {nodes final : Assoc NodeID Node}

/-- Every turn is a move. -/
theorem path_of_follow (followed : follow env cfg group turns nodes = some final) :
    ∃ path : Nat → Deployment, path 0 = ofList nodes ∧ path turns.length = ofList final ∧
      ∀ i < turns.length, Moves env cfg group (path i) (path (i + 1)) := by
  induction turns generalizing nodes with
  | nil =>
    cases followed
    exact ⟨fun _ => ofList final, rfl, rfl, fun i below => absurd below (Nat.not_lt_zero i)⟩
  | cons head turns ih =>
    obtain ⟨p, t⟩ := head
    unfold follow at followed
    split at followed
    next => cases followed
    next node found =>
      split at followed
      next => cases followed
      next next turned =>
        have updated : ofList (Assoc.assign nodes p next) =
            Function.update (ofList nodes) p (some next) := by
          funext q
          simp only [ofList, Assoc.lookup_assign, Function.update_apply]
        obtain ⟨path, first, last, moves⟩ := ih followed
        refine ⟨fun i => i.casesOn (ofList nodes) path, rfl, last, fun i below => ?_⟩
        cases i with
        | zero =>
          change Moves env cfg group (ofList nodes) (path 0)
          rw [first, updated]
          exact .node _ p node next found (moves_of_turn turned)
        | succ i => exact moves i (Nat.succ_lt_succ_iff.mp below)

theorem reaches_of_follow (followed : follow env cfg group turns nodes = some final) :
    Reaches env cfg group (ofList nodes) (ofList final) := by
  obtain ⟨path, first, last, moves⟩ := path_of_follow followed
  have along (i : Nat) (within : i ≤ turns.length) : Reaches env cfg group (path 0) (path i) := by
    induction i with
    | zero => exact .refl
    | succ i ih => exact (ih (Nat.le_of_succ_le within)).tail (moves i within)
  rw [← first, ← last]
  exact along _ le_rfl

end

end Deployment
end SchnorrMpc
