import SchnorrMpc.P2p.Node
import SchnorrMpc.Storeman.PeerTable

/-!
# The address book of the leader

Whoever asks the leader for the table of peers is sent the addresses, ports and
ids of those that have told their port, as three lists, and dials each of them.
The table itself only keeps the ids; here the message and the nodes are kept.
-/
namespace SchnorrMpc

open Lib Discover

/-- One place of the three lists. -/
structure BookEntry where
  ip : Bytes
  port : Bytes
  nodeid : Bytes
  deriving DecidableEq, Repr

def StrmanAllPeers.ofEntries (entries : List BookEntry) : StrmanAllPeers :=
  ⟨entries.map (·.ip), entries.map (·.port), entries.map (·.nodeid)⟩

namespace Storeman

/-- The table of ports once the peer has told its own. -/
def reported (sm : Storeman) (id : NodeID) (localPort : Bytes) : Storeman :=
  { sm with peersPort := Assoc.assign sm.peersPort id localPort }

/-- The message that is built on `GetPeersInfo`. -/
def peersReply (env : PeerEnv) (sm : Storeman) (id : NodeID) (localPort : Bytes)
    (order : Assoc NodeID Peer) : Go StrmanAllPeers :=
  (sm.reported id localPort).collectPeers env order

/-- The nodes that are added, in order, and how the loop goes on. -/
def dialNodes (env : UrlEnv) (sm : Storeman) (allp : StrmanAllPeers) :
    List (Bytes × Nat) → List Node × LoopEnd
  | [] => ([], .continues)
  | (port, i) :: rest =>
    match allp.nodeid[i]? with
    | none => ([], .panics)
    | some nodeid =>
      if nodeid = idString sm.self then dialNodes env sm allp rest
      else
        match sm.cfgNodes[0]? with
        | none => ([], .panics)
        | some leader =>
          if nodeid = idString leader then dialNodes env sm allp rest
          else
            match allp.ip[i]? with
            | none => ([], .panics)
            | some ip =>
              match parseNode env (peerURL nodeid ip port) with
              | .error error => ([], .returns error)
              | .ok nd =>
                let (nodes, how) := dialNodes env sm allp rest
                (nd :: nodes, how)

/-- `AllPeersInfo`. -/
def allPeersNodes (env : PeerEnv) (urls : UrlEnv) (sm : Storeman) (payload : Bytes) :
    List Node × LoopEnd :=
  match env.decodeAllPeers payload with
  | .error error => ([], .returns error)
  | .ok allp => sm.dialNodes urls allp allp.port.zipIdx

/-- What the answer of the leader makes of a node: a message without peers is not sent. -/
def answered (env : PeerEnv) (urls : UrlEnv) (encode : StrmanAllPeers → Bytes) (sm : Storeman)
    (allp : StrmanAllPeers) : List Node × LoopEnd :=
  if allp.port = [] then ([], .continues) else sm.allPeersNodes env urls (encode allp)

/-! ### The table of ids -/

theorem collectPeers_locked (env : PeerEnv) (sm : Storeman) (locked : Bool)
    (order : List (NodeID × Peer)) :
    { sm with peerMu := locked }.collectPeers env order = sm.collectPeers env order := by
  induction order with
  | nil => rfl
  | cons entry rest ih =>
    simp only [collectPeers, portOf, ih]
    rfl

/-- The message is what `GetPeersInfo` has collected when it unlocks the table. -/
theorem getPeersInfo_eq {env : PeerEnv} {sm : Storeman} {payload localPort : Bytes}
    (decoded : env.decodeGetPeers payload = .ok localPort) (free : sm.peerMu = false) (id : NodeID)
    (order : Assoc NodeID Peer) :
    sm.getPeersInfo env id payload order =
      match sm.peersReply env id localPort order with
      | .ok _ => (sm.reported id localPort, .continues)
      | .err error => ({ sm.reported id localPort with peerMu := true }, .returns error)
      | .panic => ({ sm.reported id localPort with peerMu := true }, .panics) := by
  have same : ({ sm.reported id localPort with peerMu := true } : Storeman).collectPeers env order =
      sm.peersReply env id localPort order := collectPeers_locked env _ true order
  have unlocked : ({ sm.reported id localPort with peerMu := false } : Storeman) =
      sm.reported id localPort := by
    rw [← free]
    rfl
  simp only [getPeersInfo, decoded, free, Bool.false_eq_true, if_false]
  simp only [reported] at same unlocked ⊢
  rw [same]
  split <;> simp_all

/-- The table is told the ids of the nodes. -/
theorem dialPeers_eq {env : PeerEnv} {urls : UrlEnv}
    (parses : ∀ url, env.parseNode url = (parseNode urls url).map Node.id) (sm : Storeman)
    (allp : StrmanAllPeers) (entries : List (Bytes × Nat)) :
    sm.dialPeers env allp entries =
      ({ sm with added := sm.added ++ (sm.dialNodes urls allp entries).1.map Node.id },
        (sm.dialNodes urls allp entries).2) := by
  induction entries generalizing sm with
  | nil => simp [dialPeers, dialNodes]
  | cons entry rest ih =>
    obtain ⟨port, i⟩ := entry
    have frame (added : List NodeID) : ({ sm with added } : Storeman).dialNodes urls allp rest =
        sm.dialNodes urls allp rest := by
      clear ih
      induction rest with
      | nil => rfl
      | cons entry rest ih => simp only [dialNodes, ih]
    simp only [dialPeers, dialNodes]
    cases allp.nodeid[i]? with
    | none => simp
    | some nodeid =>
      simp only
      split
      · exact ih sm
      · cases sm.cfgNodes[0]? with
        | none => simp
        | some leader =>
          simp only
          split
          · exact ih sm
          · cases allp.ip[i]? with
            | none => simp
            | some ip =>
              simp only [parses]
              cases parseNode urls (peerURL nodeid ip port) with
              | error error => simp [Except.map]
              | ok nd =>
                simp only [Except.map]
                rw [ih, frame]
                simp

end Storeman
end SchnorrMpc
