import SchnorrMpc.Storeman.PeerTable

/-!
# The table and the connections

After every event the table of peers should hold exactly the connections that
are being opened or served, and the mutex should be free. An event that can
break this breaks it for good.
-/
namespace SchnorrMpc

open Lib

namespace Storeman

/-- The connection is in its handshake or in its message loop. -/
def Alive (sm : Storeman) (id : NodeID) : Prop :=
  sm.connections.lookup id = some .handshaking ∨ sm.connections.lookup id = some .looping

/-- The table has exactly the connections that are alive, and nobody holds the mutex. -/
structure Mirrors (sm : Storeman) : Prop where
  table : ∀ id, (sm.peers.lookup id).isSome ↔ sm.Alive id
  unlocked : sm.peerMu = false
  running : sm.crashed = false

theorem Mirrors.active {sm : Storeman} (mirrors : sm.Mirrors) (id : NodeID) :
    (sm.isActivePeer id = some true ↔ sm.Alive id) ∧
      ((∃ peer, sm.sendToPeer id = some peer) ↔ sm.Alive id) := by
  rw [← mirrors.table, isActivePeer, sendToPeer, mirrors.unlocked]
  simp [Option.isSome_iff_exists]

/-! ### What a node says about its table -/

/-- The peer is left out, or its address can be resolved. -/
def Resolvable (env : PeerEnv) (sm : Storeman) (smpr : Peer) : Prop :=
  sm.portOf smpr.id = [] ∨ ∃ leader, sm.cfgNodes[0]? = some leader ∧
    (idString smpr.id = idString leader ∨
      ∃ addr, env.resolveTCPAddr smpr.remoteAddress = .ok addr)

theorem collectPeers_ok_iff (env : PeerEnv) (sm : Storeman) (order : Assoc NodeID Peer) :
    (∃ allp, sm.collectPeers env order = .ok allp) ↔ ∀ entry ∈ order,
      sm.Resolvable env entry.2 := by
  induction order with
  | nil => simp [collectPeers]
  | cons entry rest ih =>
    obtain ⟨key, smpr⟩ := entry
    rw [List.forall_mem_cons, ← ih, collectPeers, Resolvable]
    by_cases unknown : sm.portOf smpr.id = []
    · simp [unknown]
    · rw [if_neg unknown]
      cases first : sm.cfgNodes[0]? with
      | none => simp [Outcome.index, first, unknown]
      | some leader =>
        rw [Outcome.index_of_getElem? first, Outcome.ok_bind]
        by_cases leads : idString smpr.id = idString leader
        · simp [leads]
        · cases resolved : env.resolveTCPAddr smpr.remoteAddress with
          | error error => simp [leads, unknown]
          | ok addr => simp [leads, Outcome.bind_eq_ok_iff]

/-! ### What a node is told -/

/-- The entry of the table that is read at one place: the own one, the leader's, or one with an
address. -/
def EntryRead (sm : Storeman) (allp : StrmanAllPeers) (entry : Bytes × Nat) : Prop :=
  ∃ nodeid, allp.nodeid[entry.2]? = some nodeid ∧ (nodeid = idString sm.self ∨
    ∃ leader, sm.cfgNodes[0]? = some leader ∧
      (nodeid = idString leader ∨ ∃ ip, allp.ip[entry.2]? = some ip))

/-- The entry is dialled, and its URL cannot be parsed. -/
def EntryRefused (env : PeerEnv) (sm : Storeman) (allp : StrmanAllPeers) (entry : Bytes × Nat) :
    Prop :=
  ∃ nodeid ip error, allp.nodeid[entry.2]? = some nodeid ∧ nodeid ≠ idString sm.self ∧
    (∀ leader, sm.cfgNodes[0]? = some leader → nodeid ≠ idString leader) ∧
    allp.ip[entry.2]? = some ip ∧ env.parseNode (peerURL nodeid ip entry.1) = .error error

section

variable (env : PeerEnv) (sm : Storeman) (allp : StrmanAllPeers)

include env sm allp

/-- One round of dialling: it panics, it returns an error, or it goes on. -/
theorem dialPeers_cons (entry : Bytes × Nat) (rest : List (Bytes × Nat)) :
    (¬sm.EntryRead allp entry ∧ sm.dialPeers env allp (entry :: rest) = (sm, .panics)) ∨
      (sm.EntryRead allp entry ∧ sm.EntryRefused env allp entry ∧
        ∃ error, sm.dialPeers env allp (entry :: rest) = (sm, .returns error)) ∨
      (sm.EntryRead allp entry ∧ ¬sm.EntryRefused env allp entry ∧
        ∃ added, sm.dialPeers env allp (entry :: rest) =
          { sm with added }.dialPeers env allp rest) := by
  obtain ⟨port, i⟩ := entry
  rw [dialPeers]
  cases named : allp.nodeid[i]? with
  | none => exact .inl ⟨by simp [EntryRead, named], rfl⟩
  | some nodeid =>
    by_cases own : nodeid = idString sm.self
    -- it does not dial itself
    · exact .inr (.inr ⟨by simp [EntryRead, named, own], by simp [EntryRefused, named, own],
        sm.added, if_pos own⟩)
    · cases first : sm.cfgNodes[0]? with
      | none => exact .inl ⟨by simp [EntryRead, named, own, first], if_neg own⟩
      | some leader =>
        by_cases leads : nodeid = idString leader
        -- nor the leader, to which it is connected
        · exact .inr (.inr ⟨by simp [EntryRead, named, first, leads],
            by simp [EntryRefused, named, first, leads], sm.added,
            (if_neg own).trans (if_pos leads)⟩)
        · have reached {outcome : Storeman × LoopEnd} : (if nodeid = idString sm.self then
              sm.dialPeers env allp rest else if nodeid = idString leader then
                sm.dialPeers env allp rest else outcome) = outcome :=
            (if_neg own).trans (if_neg leads)
          cases addressed : allp.ip[i]? with
          | none => exact .inl ⟨by simp [EntryRead, named, own, first, leads, addressed], reached⟩
          | some ip =>
            have isRead : sm.EntryRead allp (port, i) :=
              ⟨nodeid, named, .inr ⟨leader, first, .inr ⟨ip, addressed⟩⟩⟩
            cases parsed : env.parseNode (peerURL nodeid ip port) with
            -- an error of parsing ends the loop
            | error error =>
              refine .inr (.inl ⟨isRead, ⟨nodeid, ip, error, named, own, ?_, addressed, parsed⟩,
                error, ?_⟩)
              · intro other isLeader
                rwa [← Option.some.inj (first.symm.trans isLeader)]
              · dsimp only
                rw [reached, parsed]
            | ok nd =>
              refine .inr (.inr ⟨isRead, ?_, sm.added ++ [nd], ?_⟩)
              · simp [EntryRefused, named, addressed, parsed]
              · dsimp only
                rw [reached, parsed]

theorem dialPeers_frame (entries : List (Bytes × Nat)) :
    (∃ added, (sm.dialPeers env allp entries).1 = { sm with added }) ∧
      (sm.dialPeers env allp entries).2 ≠ .blocks := by
  induction entries generalizing sm with
  | nil => exact ⟨⟨sm.added, rfl⟩, by simp [dialPeers]⟩
  | cons entry rest ih =>
    rcases dialPeers_cons env sm allp entry rest with
      ⟨-, ends⟩ | ⟨-, -, error, ends⟩ | ⟨-, -, added, goes⟩
    · rw [ends]
      exact ⟨⟨sm.added, rfl⟩, by simp⟩
    · rw [ends]
      exact ⟨⟨sm.added, rfl⟩, by simp⟩
    · rw [goes]
      obtain ⟨⟨added', same⟩, ends⟩ := ih { sm with added }
      exact ⟨⟨added', same⟩, ends⟩

/-- It panics exactly when it comes to an entry that is not there. -/
theorem dialPeers_panics_iff (entries : List (Bytes × Nat)) :
    (sm.dialPeers env allp entries).2 ≠ .panics ↔
      ∀ (n : Nat) (entry : Bytes × Nat), entries[n]? = some entry → sm.EntryRead allp entry ∨
        ∃ m < n, ∃ earlier, entries[m]? = some earlier ∧ sm.EntryRefused env allp earlier := by
  induction entries generalizing sm with
  | nil => simp [dialPeers]
  | cons entry rest ih =>
    rcases dialPeers_cons env sm allp entry rest with
      ⟨unread, ends⟩ | ⟨isRead, refused, error, ends⟩ | ⟨isRead, accepted, added, goes⟩
    · rw [ends]
      refine iff_of_false (by simp) fun all => ?_
      rcases all 0 entry rfl with isRead | ⟨m, before, -⟩
      · exact unread isRead
      · exact absurd before (Nat.not_lt_zero m)
    · rw [ends]
      refine iff_of_true (by simp) fun n other found => ?_
      cases n with
      | zero => exact .inl (Option.some.inj found ▸ isRead)
      | succ n => exact .inr ⟨0, Nat.succ_pos n, entry, rfl, refused⟩
    · rw [goes, ih]
      constructor
      · intro all n other found
        cases n with
        | zero => exact .inl (Option.some.inj found ▸ isRead)
        | succ n =>
          refine (all n other (by simpa using found)).imp_right ?_
          rintro ⟨m, before, earlier, reached, refused⟩
          exact ⟨m + 1, by omega, earlier, by simpa using reached, refused⟩
      · intro all n other found
        refine (all (n + 1) other (by simpa using found)).imp_right ?_
        rintro ⟨m, before, earlier, reached, refused⟩
        cases m with
        | zero => exact absurd (Option.some.inj reached ▸ refused) accepted
        | succ m => exact ⟨m, by omega, earlier, by simpa using reached, refused⟩

end

/-! ### One event -/

/-- The event leaves the table right: a handshake succeeds, whoever asks for the table can be told
it, and whoever tells it has lists that are long enough up to the first URL that is no node's. -/
def Safe (env : PeerEnv) (sm : Storeman) : PeerEvent → Prop
  | .connect _ => True
  | .handshake id read sent => handshake env id read sent = .ok ()
  | .packet id (.getPeersInfo payload) _ => ∀ localPort,
    env.decodeGetPeers payload = .ok localPort → ∀ entry ∈ sm.peers,
      { sm with peersPort := Assoc.assign sm.peersPort id localPort }.Resolvable env entry.2
  | .packet _ (.allPeersInfo payload) _ => ∀ allp, env.decodeAllPeers payload = .ok allp →
    ∀ (n : Nat) (entry : Bytes × Nat), allp.port.zipIdx[n]? = some entry →
      sm.EntryRead allp entry ∨
        ∃ m < n, ∃ earlier, allp.port.zipIdx[m]? = some earlier ∧ sm.EntryRefused env allp earlier
  | .packet _ .other _ => True
  | .disconnect _ _ => True

section Event

variable {env : PeerEnv} {sm : Storeman} {id : NodeID}

theorem Mirrors.unheld (mirrors : sm.Mirrors) : ¬sm.peerMu = true := by
  simp [mirrors.unlocked]

theorem Mirrors.leave (mirrors : sm.Mirrors) : (sm.leave id).Mirrors := by
  rw [Storeman.leave, if_neg mirrors.unheld]
  refine ⟨fun other => ?_, mirrors.unlocked, mirrors.running⟩
  have before := mirrors.table other
  simp only [Alive, Assoc.lookup_erase] at before ⊢
  split
  · simp
  · exact before

theorem Mirrors.connect (mirrors : sm.Mirrors) (peer : Peer) : (sm.handlePeer peer).Mirrors := by
  rw [handlePeer, if_neg mirrors.unheld]
  split
  · exact mirrors
  · refine ⟨fun other => ?_, mirrors.unlocked, mirrors.running⟩
    have before := mirrors.table other
    simp only [Alive, Assoc.lookup_assign] at before ⊢
    split
    · simp
    · exact before

theorem Mirrors.handshaken_iff (mirrors : sm.Mirrors)
    (shakes : sm.connections.lookup id = some .handshaking) (result : Except Err Unit) :
    (sm.handshaken id result).Mirrors ↔ result = .ok () := by
  cases result with
  | ok _ =>
    refine iff_of_true ⟨fun other => ?_, mirrors.unlocked, mirrors.running⟩ rfl
    have before := mirrors.table other
    simp only [handshaken, Alive, Assoc.lookup_assign] at before ⊢
    split
    next same =>
      subst same
      simpa [shakes] using before
    next => exact before
  | error error =>
    refine iff_of_false (fun after => ?_) (by simp)
    have listed : (sm.peers.lookup id).isSome := (mirrors.table id).mpr (.inl shakes)
    have alive := (after.table id).mp listed
    simp [handshaken, Alive, Assoc.lookup_erase] at alive

theorem not_mirrors_of_locked (locked : sm.peerMu = true) (how : LoopEnd) :
    ¬(sm.runMessageLoop id how).Mirrors := by
  intro mirrors
  have free := mirrors.unlocked
  cases how <;> simp [runMessageLoop, Storeman.leave, locked] at free

theorem Mirrors.getPeersInfo_iff (mirrors : sm.Mirrors) {payload : Bytes}
    {order : Assoc NodeID Peer} (iterates : order.Perm sm.peers) :
    ((sm.getPeersInfo env id payload order).1.runMessageLoop id
        (sm.getPeersInfo env id payload order).2).Mirrors ↔
      sm.Safe env (.packet id (.getPeersInfo payload) order) := by
  rw [getPeersInfo, Safe]
  cases decoded : env.decodeGetPeers payload with
  | error error => exact iff_of_true mirrors.leave (by simp)
  | ok localPort =>
    have collects := collectPeers_ok_iff env
      { sm with peerMu := true, peersPort := Assoc.assign sm.peersPort id localPort } order
    have same (P : NodeID × Peer → Prop) : (∀ entry ∈ order, P entry) ↔ ∀ entry ∈ sm.peers,
        P entry :=
      forall_congr' fun entry => by rw [iterates.mem_iff]
    rw [same] at collects
    dsimp only
    rw [if_neg mirrors.unheld]
    simp only [Except.ok.injEq, forall_eq']
    cases collected : collectPeers env
        { sm with peerMu := true, peersPort := Assoc.assign sm.peersPort id localPort } order with
    | ok allp =>
      refine iff_of_true ⟨mirrors.table, rfl, mirrors.running⟩ (collects.mp ⟨allp, collected⟩)
    | err error =>
      refine iff_of_false (not_mirrors_of_locked rfl _) fun safe => ?_
      obtain ⟨allp, found⟩ := collects.mpr safe
      simp [collected] at found
    | panic =>
      refine iff_of_false (not_mirrors_of_locked rfl _) fun safe => ?_
      obtain ⟨allp, found⟩ := collects.mpr safe
      simp [collected] at found

theorem Mirrors.allPeersInfo_iff (mirrors : sm.Mirrors) {payload : Bytes}
    {order : Assoc NodeID Peer} :
    ((sm.allPeersInfo env payload).1.runMessageLoop id (sm.allPeersInfo env payload).2).Mirrors ↔
      sm.Safe env (.packet id (.allPeersInfo payload) order) := by
  rw [allPeersInfo, Safe]
  cases decoded : env.decodeAllPeers payload with
  | error error => exact iff_of_true mirrors.leave (by simp)
  | ok allp =>
    simp only [Except.ok.injEq, forall_eq', ← dialPeers_panics_iff]
    obtain ⟨⟨added, same⟩, moves⟩ := dialPeers_frame env sm allp allp.port.zipIdx
    have after : { sm with added }.Mirrors := ⟨mirrors.table, mirrors.unlocked, mirrors.running⟩
    rw [same]
    cases how : (sm.dialPeers env allp allp.port.zipIdx).2 with
    | continues => exact iff_of_true after (by simp)
    | returns error => exact iff_of_true after.leave (by simp)
    | blocks => exact absurd how moves
    | panics =>
      refine iff_of_false (fun crashed => ?_) (by simp)
      have running := crashed.running
      simp [runMessageLoop, mirrors.unlocked] at running

/-- From a right table, an event leads to one exactly when it is safe. -/
theorem Mirrors.step_iff (mirrors : sm.Mirrors) {event : PeerEvent} {after : Storeman}
    (stepped : sm.step env event = some after) : after.Mirrors ↔ sm.Safe env event := by
  unfold step at stepped
  rw [if_neg (by simp [mirrors.running])] at stepped
  cases event with
  | connect peer =>
    dsimp only at stepped
    split at stepped
    · cases stepped
      exact iff_of_true (mirrors.connect peer) trivial
    · cases stepped
  | handshake id read sent =>
    dsimp only at stepped
    split at stepped
    next shakes =>
      cases stepped
      exact mirrors.handshaken_iff shakes _
    next => cases stepped
  | packet id packet order =>
    dsimp only at stepped
    split at stepped
    next enabled =>
      cases stepped
      cases packet with
      | getPeersInfo payload => exact mirrors.getPeersInfo_iff enabled.2
      | allPeersInfo payload => exact mirrors.allPeersInfo_iff
      | other => exact iff_of_true mirrors trivial
    next => cases stepped
  | disconnect id error =>
    dsimp only at stepped
    split at stepped
    · cases stepped
      exact iff_of_true mirrors.leave trivial
    · cases stepped

end Event

/-! ### Every sequence of events -/

/-- A sequence of events, each with the state of the node after it. -/
inductive Runs (env : PeerEnv) : Storeman → List (PeerEvent × Storeman) → Prop where
  | nil (sm : Storeman) : Runs env sm []
  | cons {sm after : Storeman} {event : PeerEvent} {rest : List (PeerEvent × Storeman)} :
      sm.step env event = some after → Runs env after rest → Runs env sm ((event, after) :: rest)

/-- Every event is safe where it happens. -/
def AllSafe (env : PeerEnv) : Storeman → List (PeerEvent × Storeman) → Prop
  | _, [] => True
  | sm, (event, after) :: rest => sm.Safe env event ∧ AllSafe env after rest

theorem mirrors_iff_of_runs {env : PeerEnv} {sm : Storeman} {trace : List (PeerEvent × Storeman)}
    (runs : Runs env sm trace) (mirrors : sm.Mirrors) :
    (∀ entry ∈ trace, entry.2.Mirrors) ↔ AllSafe env sm trace := by
  induction runs with
  | nil => simp [AllSafe]
  | cons stepped later ih =>
    rw [List.forall_mem_cons, AllSafe, mirrors.step_iff stepped]
    refine and_congr_right fun safe => ih ((mirrors.step_iff stepped).mpr safe)

end Storeman

open Storeman in
/-- After each event the table has exactly the connections that are alive, nobody holds the mutex,
and only connections that are alive are taken for active: in a sequence of events exactly when each
of them is safe. -/
theorem peerTable_mirrors_iff (env : PeerEnv) (self : NodeID) (cfgNodes serverNodes : List NodeID)
    (trace : List (PeerEvent × Storeman))
    (runs : Runs env (Storeman.new self cfgNodes serverNodes) trace) :
    (∀ entry ∈ trace, entry.2.Mirrors ∧ ∀ id,
        (entry.2.isActivePeer id = some true ↔ entry.2.Alive id) ∧
          ((∃ peer, entry.2.sendToPeer id = some peer) ↔ entry.2.Alive id)) ↔
      AllSafe env (Storeman.new self cfgNodes serverNodes) trace := by
  have start : (Storeman.new self cfgNodes serverNodes).Mirrors :=
    ⟨fun id => by simp [Storeman.new, Alive], rfl, rfl⟩
  rw [← mirrors_iff_of_runs runs start]
  constructor
  · exact fun all entry member => (all entry member).1
  · exact fun all entry member => ⟨all entry member, (all entry member).active⟩

namespace PeerTableSample

/-- One address can be resolved, and an empty payload has fewer nodes than ports. -/
def env : PeerEnv where
  resolveTCPAddr address := if address = utf8 "pipe" then
    .error (.new (utf8 "missing port in address")) else .ok address
  parseNode _ := .ok 3
  decodeGetPeers payload := .ok payload
  decodeAllPeers payload := if payload = [] then .ok ⟨[], [utf8 "17717"], []⟩
    else .ok ⟨[utf8 "127.0.0.1"], [utf8 "17717"], [idString 3]⟩
  streamUint _ := .ok pVer

/-- The status message of this version, and the own one sent. -/
def status : PeerEvent := .handshake 2 (some (.ok (statusCode, []))) (some (.ok ()))

def start : Storeman := Storeman.new 1 [1] [1, 2, 3]

def peer : Peer := ⟨2, utf8 "127.0.0.1:8080"⟩

/-- Node 1 of a group of three, with node 2 connected. -/
def connected : Storeman := start.handlePeer peer

def served : Storeman := connected.handshaken 2 (.ok ())

def asked : Storeman := { served with peersPort := [(2, utf8 "17717")] }

def dialled : Storeman := { asked with added := [3] }

theorem served_runs : Storeman.Runs env start
    [(.connect peer, connected), (status, served),
      (.packet 2 (.getPeersInfo (utf8 "17717")) [(2, peer)], asked),
      (.packet 2 (.allPeersInfo [1]) [(2, peer)], dialled),
      (.disconnect 2 (.new []), dialled.leave 2)] :=
  .cons (by decide +kernel) <| .cons (by decide +kernel) <| .cons (by decide +kernel) <|
    .cons (by decide +kernel) <| .cons (by decide +kernel) <| .nil _

end PeerTableSample

open PeerTableSample Storeman in
/-- Node 2 connects, shakes hands, asks for the table, tells its own and disconnects. -/
theorem peerTable_mirrors_iff_served : connected.Mirrors ∧ served.Mirrors ∧ asked.Mirrors ∧
    dialled.Mirrors ∧ (dialled.leave 2).Mirrors := by
  have shaken : handshake env 2 (some (.ok (statusCode, []))) (some (.ok ())) = .ok () := by
    decide +kernel
  have resolvable : served.Safe env (.packet 2 (.getPeersInfo (utf8 "17717")) [(2, peer)]) := by
    have table : served.peers = [(2, peer)] := by decide +kernel
    have leads : served.cfgNodes[0]? = some 1 := by decide +kernel
    rintro localPort told entry member
    rw [table, List.mem_singleton] at member
    dsimp only [Storeman.Resolvable]
    exact .inr ⟨1, leads, .inr ⟨peer.remoteAddress, member ▸ by decide +kernel⟩⟩
  have readable : asked.Safe env (.packet 2 (.allPeersInfo [1]) [(2, peer)]) := by
    rintro allp decoded n entry found
    obtain rfl := Except.ok.inj decoded
    obtain ⟨rfl, rfl⟩ : n = 0 ∧ entry = (utf8 "17717", 0) := by
      cases n with
      | zero => exact ⟨rfl, (Option.some.inj found).symm⟩
      | succ n => cases found
    exact .inl ⟨idString 3, rfl, .inr ⟨1, by decide +kernel, .inr ⟨utf8 "127.0.0.1", rfl⟩⟩⟩
  have mirrored := (peerTable_mirrors_iff env 1 [1] [1, 2, 3] _ served_runs).mpr
    ⟨trivial, shaken, resolvable, readable, trivial, trivial⟩
  simp only [List.forall_mem_cons] at mirrored
  exact ⟨mirrored.1.1, mirrored.2.1.1, mirrored.2.2.1.1, mirrored.2.2.2.1.1,
    mirrored.2.2.2.2.1.1⟩

open PeerTableSample in
/-- A peer that sends no status message is taken for active after its connection has ended. One
whose question comes before an address that cannot be resolved leaves with the mutex locked. One
that tells more ports than nodes ends the process. -/
theorem peerTable_broken :
    let connect := PeerEvent.connect ⟨2, utf8 "pipe"⟩
    let told := PeerEvent.packet 2 (.getPeersInfo (utf8 "17717")) [(2, ⟨2, utf8 "pipe"⟩)]
    let tells := PeerEvent.packet 2 (.allPeersInfo []) [(2, ⟨2, utf8 "pipe"⟩)]
    ([connect, .handshake 2 none (some (.ok ()))].foldlM (Storeman.step env) start).map
        (fun sm => (sm.isActivePeer 2, sm.connections.lookup 2)) = some (some true, none) ∧
      ([connect, status, told].foldlM (Storeman.step env) start).map
        (fun sm => (sm.peerMu, sm.isActivePeer 3)) = some (true, none) ∧
      ([connect, status, tells].foldlM (Storeman.step env) start).map Storeman.crashed =
        some true := by
  refine ⟨?_, ?_, ?_⟩ <;> decide +kernel

end SchnorrMpc
