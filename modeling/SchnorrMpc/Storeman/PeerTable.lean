import SchnorrMpc.Lib.Assoc
import SchnorrMpc.Lib.Hex
import SchnorrMpc.Protocol.Types

/-!
# The table of connected peers

The p2p layer calls `HandlePeer` in a goroutine of its own for each connection.
It enters the peer in a table, shakes hands, and then reads messages until the
connection ends. The table is guarded by a mutex.
-/
namespace SchnorrMpc

open Lib

/-- `NodeID.String`. -/
def idString (id : NodeID) : Bytes := hexEncode (bePad 64 id.toNat)

/-- A connection: who is at its other end, and from which address. -/
structure Peer where
  id : NodeID
  remoteAddress : Bytes
  deriving DecidableEq, Repr

structure StrmanAllPeers where
  ip : List Bytes
  port : List Bytes
  nodeid : List Bytes
  deriving DecidableEq, Repr

/-- Name resolution, node URLs and RLP, as far as the table depends on them. -/
structure PeerEnv where
  resolveTCPAddr : Bytes → Except Err Bytes
  parseNode : Bytes → Except Err NodeID
  decodeGetPeers : Bytes → Except Err Bytes
  decodeAllPeers : Bytes → Except Err StrmanAllPeers
  streamUint : Bytes → Except Err Nat

/-! ### The handshake -/

def statusCode : Nat := 10

def pVer : Nat := 10

/-- The remote status is waited for first, then the own one must have been sent. Nothing within 20
seconds is none. -/
def handshake (env : PeerEnv) (id : NodeID) (read : Option (Except Err (Nat × Bytes)))
    (sent : Option (Except Err Unit)) : Except Err Unit :=
  let peer := utf8 "storeman peer [" ++ idString id ++ utf8 "]"
  let notSent := peer ++ utf8 " failed to send status packet: "
  match read with
  | none => .error (.new (notSent ++ utf8 "%!v(MISSING) time out"))
  | some (.error error) => .error error
  | some (.ok (code, payload)) =>
    if code ≠ statusCode then
      .error (.new (peer ++ utf8 " sent packet " ++ utf8 (String.ofList (Nat.toDigits 16 code))
        ++ utf8 " before status packet"))
    else
      match env.streamUint payload with
      | .error error => .error (.new (peer ++ utf8 " sent bad status message: " ++ error.error))
      | .ok peerVersion =>
        if peerVersion ≠ pVer then
          .error (.new (peer ++ utf8 ": protocol version mismatch " ++ utf8 (toString peerVersion)
            ++ utf8 " != " ++ utf8 (toString pVer)))
        else
          match sent with
          | some (.ok ()) => .ok ()
          | some (.error error) => .error (.new (notSent ++ error.error))
          | none => .error (.new (notSent ++ utf8 "%!v(MISSING) time out"))

/-! ### The state of a node -/

/-- Where the goroutine of a connection is. -/
inductive Phase where
  | handshaking
  | looping
  /-- It waits for the mutex. -/
  | waiting
  deriving DecidableEq, Repr

/-- `cfgNodes` and `serverNodes` are the group as the configuration and the p2p server have it;
`connections` are the calls of `HandlePeer` that have not returned. -/
structure Storeman where
  self : NodeID
  cfgNodes : List NodeID
  serverNodes : List NodeID
  peers : Assoc NodeID Peer
  peersPort : Assoc NodeID Bytes
  peerMu : Bool
  connections : Assoc NodeID Phase
  /-- What `AddPeer` was called with. -/
  added : List NodeID
  crashed : Bool
  deriving DecidableEq, Repr

inductive Packet where
  | getPeersInfo (payload : Bytes)
  | allPeersInfo (payload : Bytes)
  /-- Every other code goes to the distributor, whose errors are only logged. -/
  | other
  deriving DecidableEq, Repr

/-- How the loop goes on after a packet. -/
inductive LoopEnd where
  | continues
  | returns (error : Err)
  | panics
  /-- It waits for the mutex inside of the loop. -/
  | blocks
  deriving DecidableEq, Repr

namespace Storeman

/-- `New` and `Start`. -/
def new (self : NodeID) (cfgNodes serverNodes : List NodeID) : Storeman :=
  ⟨self, cfgNodes, serverNodes, [], [], false, [], [], false⟩

/-! ### Asking for the table -/

/-- The port that a peer has told, or the empty string. -/
def portOf (sm : Storeman) (id : NodeID) : Bytes := (sm.peersPort.lookup id).getD []

/-- The peers with a known port, but for the leader, in the order of the iteration. -/
def collectPeers (env : PeerEnv) (sm : Storeman) : List (NodeID × Peer) → Go StrmanAllPeers
  | [] => .ok ⟨[], [], []⟩
  | (_, smpr) :: rest =>
    if sm.portOf smpr.id = [] then collectPeers env sm rest
    else do
      let leader ← Outcome.index sm.cfgNodes 0
      if idString smpr.id = idString leader then collectPeers env sm rest
      else
        match env.resolveTCPAddr smpr.remoteAddress with
        | .error error => .err error
        | .ok addr => do
          let allp ← collectPeers env sm rest
          pure ⟨addr.takeWhile (· ≠ 58) :: allp.ip, sm.portOf smpr.id :: allp.port,
            idString smpr.id :: allp.nodeid⟩

/-- `GetPeersInfo`. An error inside of the critical section returns without unlocking. -/
def getPeersInfo (env : PeerEnv) (sm : Storeman) (id : NodeID) (payload : Bytes)
    (order : Assoc NodeID Peer) : Storeman × LoopEnd :=
  match env.decodeGetPeers payload with
  | .error error => (sm, .returns error)
  | .ok localPort =>
    if sm.peerMu then (sm, .blocks)
    else
      let locked := { sm with
        peerMu := true, peersPort := Assoc.assign sm.peersPort id localPort }
      match collectPeers env locked order with
      | .err error => (locked, .returns error)
      | .panic => (locked, .panics)
      | .ok _ => ({ locked with peerMu := false }, .continues)

/-! ### Being told the table -/

def peerURL (nodeid ip port : Bytes) : Bytes :=
  utf8 "enode://" ++ nodeid ++ utf8 "@" ++ ip ++ utf8 ":" ++ port

/-- Each entry but the own one and the leader's is dialled. The ports are counted; the other two
lists are read at the same places. -/
def dialPeers (env : PeerEnv) (sm : Storeman) (allp : StrmanAllPeers) :
    List (Bytes × Nat) → Storeman × LoopEnd
  | [] => (sm, .continues)
  | (port, i) :: rest =>
    match allp.nodeid[i]? with
    | none => (sm, .panics)
    | some nodeid =>
      if nodeid = idString sm.self then dialPeers env sm allp rest
      else
        match sm.cfgNodes[0]? with
        | none => (sm, .panics)
        | some leader =>
          if nodeid = idString leader then dialPeers env sm allp rest
          else
            match allp.ip[i]? with
            | none => (sm, .panics)
            | some ip =>
              match env.parseNode (peerURL nodeid ip port) with
              | .error error => (sm, .returns error)
              | .ok nd => dialPeers env { sm with added := sm.added ++ [nd] } allp rest

def allPeersInfo (env : PeerEnv) (sm : Storeman) (payload : Bytes) : Storeman × LoopEnd :=
  match env.decodeAllPeers payload with
  | .error error => (sm, .returns error)
  | .ok allp => dialPeers env sm allp allp.port.zipIdx

/-! ### The life of a connection -/

/-- `HandlePeer` up to the handshake. -/
def handlePeer (sm : Storeman) (peer : Peer) : Storeman :=
  if peer.id ∉ sm.serverNodes then sm
  else if sm.peerMu then { sm with connections := Assoc.assign sm.connections peer.id .waiting }
  else { sm with
    peers := Assoc.assign sm.peers peer.id peer
    connections := Assoc.assign sm.connections peer.id .handshaking }

/-- `HandlePeer` after the handshake. On an error it returns before the removal of the entry is
deferred. -/
def handshaken (sm : Storeman) (id : NodeID) : Except Err Unit → Storeman
  | .error _ => { sm with connections := Assoc.erase sm.connections id }
  | .ok () => { sm with connections := Assoc.assign sm.connections id .looping }

/-- What `HandlePeer` has deferred. -/
def leave (sm : Storeman) (id : NodeID) : Storeman :=
  if sm.peerMu then { sm with connections := Assoc.assign sm.connections id .waiting }
  else { sm with
    peers := Assoc.erase sm.peers id
    connections := Assoc.erase sm.connections id }

/-- One round of `runMessageLoop`, with the deferred calls when it ends. A panic ends the process
once they are done. -/
def runMessageLoop (sm : Storeman) (id : NodeID) : LoopEnd → Storeman
  | .continues => sm
  | .returns _ => sm.leave id
  | .blocks => { sm with connections := Assoc.assign sm.connections id .waiting }
  | .panics => if sm.peerMu then sm.leave id else { sm.leave id with crashed := true }

def readPacket (env : PeerEnv) (sm : Storeman) (id : NodeID) (order : Assoc NodeID Peer) :
    Packet → Storeman × LoopEnd
  | .getPeersInfo payload => sm.getPeersInfo env id payload order
  | .allPeersInfo payload => sm.allPeersInfo env payload
  | .other => (sm, .continues)

end Storeman

/-- What happens to a node. A packet comes with the order in which the table would be iterated. -/
inductive PeerEvent where
  | connect (peer : Peer)
  | handshake (id : NodeID) (read : Option (Except Err (Nat × Bytes)))
      (sent : Option (Except Err Unit))
  | packet (id : NodeID) (packet : Packet) (order : Assoc NodeID Peer)
  | disconnect (id : NodeID) (error : Err)

namespace Storeman

/-- What a node does about an event that can happen: a node has one connection at a time, and only
a connection whose goroutine waits for it can go on. -/
def step (env : PeerEnv) (sm : Storeman) (event : PeerEvent) : Option Storeman :=
  if sm.crashed then none
  else
    match event with
    | .connect peer =>
      if sm.connections.lookup peer.id = none then some (sm.handlePeer peer) else none
    | .handshake id read sent =>
      if sm.connections.lookup id = some .handshaking then
        some (sm.handshaken id (SchnorrMpc.handshake env id read sent))
      else none
    | .packet id packet order =>
      if sm.connections.lookup id = some .looping ∧ order.Perm sm.peers then
        let (after, how) := sm.readPacket env id order packet
        some (after.runMessageLoop id how)
      else none
    | .disconnect id error =>
      if sm.connections.lookup id = some .looping then some (sm.runMessageLoop id (.returns error))
      else none

/-! ### Who is active -/

/-- Without a result the caller waits for the mutex. -/
def isActivePeer (sm : Storeman) (peerID : NodeID) : Option Bool :=
  if sm.peerMu then none else some (sm.peers.lookup peerID).isSome

/-- The connection that `SendToPeer` writes to. -/
def sendToPeer (sm : Storeman) (peerID : NodeID) : Option Peer :=
  if sm.peerMu then none else sm.peers.lookup peerID

end Storeman
end SchnorrMpc
