import SchnorrMpc.Mpc.KeyPoints
import SchnorrMpc.Mpc.Schedule
import SchnorrMpc.Properties.KeyTraces

/-!
# Agreement of a key generation

Each node computes the group key from whichever public shares its map yields
first, and these need not fit together. The last step has every node hear the
key of every other, so two honest nodes that both succeed have the same one.
-/
namespace SchnorrMpc

open Lib

namespace Group

variable {kenv : KeyEnv} {cfg : Config} {members ids : List NodeID} {mpcID : Nat} {g g' : Group}
  (generates : g.Generates cfg members ids mpcID) (reaches : Reaches kenv cfg members g g')
  {p : NodeID} {run : ContextRun} (here : g' p = some run)

include generates reaches here

theorem Generates.node :
    ∃ srv leader ctx, p ∈ members ∧ srv.self = p ∧ GpkStart leader ctx ∧
      (leader = false → Seeded ctx.peers) ∧ ctx.peers.map PeerInfo.peerID = ids ∧
      g p = some (.start srv ctx) ∧
      ContextRun.Reaches kenv cfg (g'.Arrives members p) (.start srv ctx) run := by
  obtain ⟨start, honest, path⟩ := Reaches.origin reaches here
  obtain ⟨member, srv, leader, peers, ctx, rfl, isSelf, isPeers, created⟩ :=
    generates.starts p start honest
  rw [← createContext_peers created] at isPeers
  refine ⟨srv, leader, ctx, member, isSelf, createContext_gpkStart created, ?_, isPeers, honest,
    path⟩
  rintro rfl
  exact createContext_seeded created

/-- Who has finished has heard every member tell the key. -/
theorem Generates.told_by_all (past : run.pc.stage.Past 4) :
    ∃ encoded, run.ctx.mpcResult.byteResult .mpcContextResult = some encoded ∧
      ∀ q ∈ members, ∃ msg, msg.stepID = 4 ∧ msg.bytesData.head? = some encoded ∧
        ∀ other, g' q = some other → other.Sends p msg := by
  obtain ⟨srv, leader, ctx, member, isSelf, start, -, isPeers, -, path⟩ :=
    generates.node reaches here
  obtain ⟨encoded, entries, isKey, told, complete, same⟩ := (start.acknowledges path).agreed past
  have self : run.srv.self = p := (View.Reaches.self_eq (start.path path).1).trans isSelf
  have origin (entry : NodeID × Bytes) (listed : entry ∈ entries) :
      entry.1 ∈ members ∧ ∃ msg, msg.stepID = 4 ∧ msg.bytesData.head? = some encoded ∧
        ∀ other, g' entry.1 = some other → other.Sends p msg := by
    obtain ⟨msg, heard, isStep, isHead⟩ := told.origin entry listed
    obtain ⟨isMember, sent⟩ := mem_of_heard here self member heard
    exact ⟨isMember, msg, isStep, same entry listed ▸ isHead, sent⟩
  -- As many different members have told a key as there are peers, so all of them have.
  have everyone : (entries.map Prod.fst).Perm ids := by
    refine (List.subperm_of_subset told.distinct ?_).perm_of_length_le ?_
    · intro q listed
      obtain ⟨entry, isEntry, rfl⟩ := List.mem_map.mp listed
      exact generates.covers _ (origin entry isEntry).1
    · have samePeers := (View.Reaches.peerIDs (start.path path).1).trans isPeers
      rw [← samePeers, List.length_map, List.length_map, complete]
  refine ⟨encoded, isKey, fun q isMember => ?_⟩
  obtain ⟨entry, listed, rfl⟩ :=
    List.mem_map.mp (everyone.mem_iff.mpr (generates.covers q isMember))
  exact (origin entry listed).2

theorem Generates.same_bytes (past : run.pc.stage.Past 4) :
    ∃ encoded, run.ctx.mpcResult.byteResult .mpcContextResult = some encoded ∧
      ∀ q other, g' q = some other →
        other.ctx.mpcResult.byteResult .mpcContextResult = some encoded := by
  obtain ⟨encoded, isKey, everyone⟩ := generates.told_by_all reaches here past
  refine ⟨encoded, isKey, fun q other there => ?_⟩
  obtain ⟨srv, leader, ctx, isMember, -, start, -, -, -, path⟩ := generates.node reaches there
  obtain ⟨msg, isStep, isHead, sent⟩ := everyone q isMember
  obtain ⟨stored, isStored, content⟩ := start.tells path (sent other there) isStep
  rw [content] at isHead
  rw [isStored]
  exact isHead

theorem Generates.stored (past : run.pc.stage.Past 3) (ranged : kenv.curve.KeepsRange) :
    ∃ gpk encoded, run.ctx.mpcResult.result .publicKeyResult = some [gpk.1, gpk.2] ∧
      run.ctx.mpcResult.byteResult .mpcContextResult = some encoded ∧
      fromECDSAPub (some gpk) = .ok encoded ∧ Ranged (some gpk) := by
  obtain ⟨srv, leader, ctx, -, -, start, -, -, -, path⟩ := generates.node reaches here
  obtain ⟨choice, u, v, finishes⟩ := start.finished path (by decide) past
  obtain ⟨pointer, order, gpk, share, keyStore, encoded, key⟩ := start.finishes_key finishes
  obtain ⟨isPoint, isBytes⟩ := start.stored_key finishes key
  have interpolated := (MpcPointGenerator.calculateResult_eq_ok key.calculated).2.1
  have isRanged := lagrangeECC_ranged ranged interpolated
  obtain ⟨⟨xNonneg, -⟩, yNonneg, -⟩ := isRanged gpk.1 gpk.2 rfl
  have encodes := key.encodes
  rw [Int.natAbs_of_nonneg xNonneg, Int.natAbs_of_nonneg yNonneg] at encodes
  exact ⟨gpk, encoded, isPoint, isBytes, encodes, isRanged⟩

omit here in
/-- Nodes that have finished have the same key and the same bytes. -/
theorem Generates.same_key (ranged : kenv.curve.KeepsRange) {q : NodeID}
    {other : ContextRun} (here : g' p = some run) (there : g' q = some other)
    (past : run.pc.stage.Past 3 ∧ run.pc.stage.Past 4) (past' : other.pc.stage.Past 3) :
    ∃ (gpk : Int × Int) (encoded : Bytes),
      run.ctx.mpcResult.result .publicKeyResult = some [gpk.1, gpk.2] ∧
      other.ctx.mpcResult.result .publicKeyResult = some [gpk.1, gpk.2] ∧
      run.ctx.mpcResult.byteResult .mpcContextResult = some encoded ∧
      other.ctx.mpcResult.byteResult .mpcContextResult = some encoded := by
  obtain ⟨gpk, encoded, isKey, isBytes, encodes, isRanged⟩ :=
    generates.stored reaches here past.1 ranged
  obtain ⟨gpk', encoded', isKey', isBytes', encodes', isRanged'⟩ :=
    generates.stored reaches there past' ranged
  obtain ⟨told, isTold, everyone⟩ := generates.same_bytes reaches here past.2
  -- The bytes are told, and the encoding of such a point is injective.
  obtain rfl : told = encoded := Option.some.inj (isTold.symm.trans isBytes)
  obtain rfl : told = encoded' := Option.some.inj ((everyone q other there).symm.trans isBytes')
  obtain ⟨⟨xNonneg, xLt⟩, yNonneg, yLt⟩ := isRanged gpk.1 gpk.2 rfl
  obtain ⟨⟨xNonneg', xLt'⟩, yNonneg', yLt'⟩ := isRanged' gpk'.1 gpk'.2 rfl
  obtain ⟨sameX, sameY⟩ := fromECDSAPub_injective (by omega) (by omega) (by omega) (by omega)
    (encodes.trans encodes'.symm)
  obtain rfl : gpk = gpk' := Prod.ext (by omega) (by omega)
  exact ⟨gpk, told, isKey, isKey', isBytes, isBytes'⟩

end Group

/-- Two honest nodes that both finish without an error have the same public key and the same
bytes, whatever the other members send and however messages are delayed, lost or repeated. -/
theorem key_agreement (kenv : KeyEnv) (cfg : Config)
    (ecmult : Ecmult)
    (isCurve : kenv.curve = BitCurve.curve ecmult) (members ids : List NodeID) (mpcID : Nat)
    (g g' : Group) (generates : g.Generates cfg members ids mpcID)
    (reaches : Group.Reaches kenv cfg members g g') (p q : NodeID) (runP runQ : ContextRun)
    (hereP : g' p = some runP) (hereQ : g' q = some runQ) (returnedP : runP.pc = .returned none)
    (returnedQ : runQ.pc = .returned none) :
    ∃ (gpk : Int × Int) (encoded : Bytes),
      runP.ctx.mpcResult.result .publicKeyResult = some [gpk.1, gpk.2] ∧
      runQ.ctx.mpcResult.result .publicKeyResult = some [gpk.1, gpk.2] ∧
      runP.ctx.mpcResult.byteResult .mpcContextResult = some encoded ∧
      runQ.ctx.mpcResult.byteResult .mpcContextResult = some encoded := by
  have ranged : kenv.curve.KeepsRange := by
    rw [isCurve]
    exact BitCurve.keepsRange ecmult
  have past {run : ContextRun} (returned : run.pc = .returned none) (i : Nat) :
      run.pc.stage.Past i := by
    rw [returned]
    trivial
  exact generates.same_key reaches ranged hereP hereQ ⟨past returnedP 3, past returnedP 4⟩
    (past returnedQ 3)

/-! ### Two honest members -/

/-- The leader and a follower that has been told the seeds. -/
def pairNodes (leader peer : MpcContext) : Assoc NodeID ContextRun :=
  [(1, .start traceServer leader), (2, .start { traceServer with self := 2 } peer)]

/-- The leader deals one and the follower zero, so that each has one as its share. -/
def pairTurns : List (NodeID × List Action) :=
  let peerChoice : Choice := { traceChoice with random := ⟨.ok 0, [], []⟩ }
  let shares (choice : Choice) :=
    ({ choice with orders := ⟨[[(5, 1), (6, 0)]], []⟩ } : Choice).moves 1
  let points (choice : Choice) := ({ choice with
    orders := ⟨[], [[(5, KeyFileSample.gpk), (6, KeyFileSample.gpk)]]⟩ } : Choice).moves 1
  let point : MpcMessage := ⟨7, 3, [], [KeyFileSample.gpk.1, KeyFileSample.gpk.2], []⟩
  let ack : MpcMessage := ⟨7, 4, [], [], [4 :: (bePad 32 S256.Gx ++ bePad 32 S256.Gy)]⟩
  [(1, traceChoice.moves 10),
    (2, peerChoice.moves 15),
    (1, hears 2 ⟨7, 0, [], [1], []⟩ ++ traceChoice.moves 14),
    (2, hears 1 ⟨7, 1, [], [1], []⟩ ++ peerChoice.moves 7),
    (1, [.messageLoop 2] ++ hears 2 ⟨7, 2, [], [0], []⟩ ++ traceChoice.moves 2
      ++ shares traceChoice ++ traceChoice.moves 4),
    (2, hears 1 ⟨7, 2, [], [1], []⟩ ++ [.messageLoop 2] ++ peerChoice.moves 2
      ++ shares peerChoice ++ peerChoice.moves 4),
    (1, [.messageLoop 3] ++ hears 2 point ++ traceChoice.moves 2
      ++ points traceChoice ++ traceChoice.moves 4),
    (2, hears 1 point ++ [.messageLoop 3] ++ peerChoice.moves 2
      ++ points peerChoice ++ peerChoice.moves 4),
    (1, [.messageLoop 4] ++ hears 2 ack ++ traceChoice.moves 16),
    (2, hears 1 ack ++ [.messageLoop 4] ++ peerChoice.moves 16)]

def pairRun : Option (Assoc NodeID ContextRun) :=
  match createContext ⟨1, 2⟩ .mpcGPKLeader 7 [⟨1, 0⟩, ⟨2, 0⟩] [],
      createContext ⟨1, 2⟩ .mpcGPKPeer 7 [⟨1, 5⟩, ⟨2, 6⟩] [] with
  | .ok leader, .ok peer =>
    Group.follow KeyFileSample.env ⟨1, 2⟩ [1, 2] pairTurns (pairNodes leader peer)
  | _, _ => none

theorem pairNodes_generates {leader peer : MpcContext}
    (createdLeader : createContext ⟨1, 2⟩ .mpcGPKLeader 7 [⟨1, 0⟩, ⟨2, 0⟩] [] = .ok leader)
    (createdPeer : createContext ⟨1, 2⟩ .mpcGPKPeer 7 [⟨1, 5⟩, ⟨2, 6⟩] [] = .ok peer) :
    (Group.ofList (pairNodes leader peer)).Generates ⟨1, 2⟩ [1, 2] [1, 2] 7 := by
  refine ⟨fun q member => member, fun p run found => ?_⟩
  rcases List.mem_cons.mp (Assoc.mem_of_lookup found) with first | second
  · obtain ⟨rfl, rfl⟩ := Prod.mk.inj first
    exact ⟨by simp, traceServer, true, _, leader, rfl, rfl, rfl, createdLeader⟩
  · obtain ⟨rfl, rfl⟩ := Prod.mk.inj (List.mem_singleton.mp second)
    exact ⟨by simp, { traceServer with self := 2 }, false, _, peer, rfl, rfl, rfl, createdPeer⟩

private theorem pairRun_returns :
    pairRun.map (fun nodes => ((nodes.lookup 1).map ContextRun.pc,
      (nodes.lookup 2).map ContextRun.pc)) =
      some (some (.returned none), some (.returned none)) := by
  decide +kernel

theorem key_agreement_pair :
    ∃ g g' runP runQ, g.Generates ⟨1, 2⟩ [1, 2] [1, 2] 7 ∧
      Group.Reaches KeyFileSample.env ⟨1, 2⟩ [1, 2] g g' ∧ g' 1 = some runP ∧
      g' 2 = some runQ ∧ runP.pc = .returned none ∧ runQ.pc = .returned none ∧
      runP.ctx.mpcResult.result .publicKeyResult = runQ.ctx.mpcResult.result .publicKeyResult := by
  obtain ⟨nodes, followed, returns⟩ := Option.map_eq_some_iff.mp pairRun_returns
  obtain ⟨runP, hereP, returnedP⟩ := Option.map_eq_some_iff.mp (Prod.mk.inj returns).1
  obtain ⟨runQ, hereQ, returnedQ⟩ := Option.map_eq_some_iff.mp (Prod.mk.inj returns).2
  unfold pairRun at followed
  split at followed
  next leader peer createdLeader createdPeer =>
    have generates := pairNodes_generates createdLeader createdPeer
    have reaches := Group.reaches_of_follow followed
    obtain ⟨gpk, encoded, keyP, keyQ, -, -⟩ := key_agreement KeyFileSample.env ⟨1, 2⟩
      (fun x y _ => (x, y)) rfl [1, 2] [1, 2] 7 _ _ generates reaches 1 2 runP runQ hereP
      hereQ returnedP returnedQ
    exact ⟨_, _, runP, runQ, generates, reaches, hereP, hereQ, returnedP, returnedQ,
      keyP.trans keyQ.symm⟩
  next => cases followed

end SchnorrMpc
