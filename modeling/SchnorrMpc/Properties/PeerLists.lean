import SchnorrMpc.Mpc.Request
import SchnorrMpc.Step.Kinds

/-!
# Peer lists between nodes

Every node sorts the group it is configured with, so an index on the wire means
the same member everywhere, as long as it fits its byte.
-/
namespace SchnorrMpc

open Lib

namespace MpcDistributor

variable {srv : MpcDistributor}

/-! ### The sorted group -/

theorem initStoreManGroup_perm : srv.initStoreManGroup.storeManGroup.Perm srv.storeManGroup :=
  List.mergeSort_perm _ _

theorem initStoreManGroup_congr {srv' : MpcDistributor}
    (same : srv.storeManGroup.Perm srv'.storeManGroup) :
    srv.initStoreManGroup.storeManGroup = srv'.initStoreManGroup.storeManGroup := by
  have sorted (group : List NodeID) :
      (group.mergeSort fun p q => decide (p ≤ q)).Pairwise (· ≤ ·) := by
    have ordered : (group.mergeSort fun p q => decide (p ≤ q)).Pairwise
        fun p q => decide (p ≤ q) = true :=
      List.pairwise_mergeSort (fun a b c => by simpa using BitVec.le_trans)
        (fun a b => by simpa using BitVec.le_total a b) group
    simpa using ordered
  refine List.Perm.eq_of_pairwise' (r := (· ≤ ·)) (sorted _) (sorted _) ?_
  exact initStoreManGroup_perm.trans (same.trans initStoreManGroup_perm.symm)

theorem lookup_storeManIndex (distinct : srv.storeManGroup.Nodup) {i : Nat} {peerID : NodeID}
    (found : srv.initStoreManGroup.storeManGroup[i]? = some peerID) :
    srv.initStoreManGroup.storeManIndex.lookup peerID = some (UInt8.ofNat i) := by
  have sorted : srv.initStoreManGroup.storeManGroup.Nodup :=
    initStoreManGroup_perm.nodup_iff.mpr distinct
  refine Assoc.lookup_foldl_assign UInt8.ofNat ?_ ?_ []
  · rw [List.zipIdx_map_fst]
    exact sorted
  · exact List.mk_mem_zipIdx_iff_getElem?.mpr found

/-! ### One list there and back -/

theorem decodePeers_append (group : List NodeID) (index a b c : UInt8) (rest : Bytes) :
    decodePeers group (index :: [a, b, c] ++ rest) =
      decodePeer group index [a, b, c] :: decodePeers group rest := rfl

theorem seed_bytes {seed : Nat} (small : seed < 2 ^ 24) :
    ∃ a b c, (bePad 8 seed).drop 5 = [a, b, c] ∧ beNat [a, b, c] = seed := by
  have cut : (bePad 8 seed).drop 5 = bePad 3 seed := drop_bePad 5 3 seed
  obtain ⟨a, b, c, three⟩ := List.length_eq_three.mp (length_bePad 3 seed)
  refine ⟨a, b, c, cut.trans three, ?_⟩
  rw [← three]
  exact beNat_bePad_of_lt small

theorem decodePeers_setMessagePeers {group : List NodeID} (small : group.length ≤ 256)
    (index : ∀ i peerID, group[i]? = some peerID →
      srv.storeManIndex.lookup peerID = some (UInt8.ofNat i))
    {peers : List PeerInfo} (members : ∀ peer ∈ peers, peer.peerID ∈ group)
    (seeds : ∀ peer ∈ peers, peer.seed < 2 ^ 24) :
    decodePeers group (srv.setMessagePeers peers) = peers ∧
      (srv.setMessagePeers peers).length = 4 * peers.length := by
  induction peers with
  | nil => exact ⟨rfl, rfl⟩
  | cons peer peers ih =>
    obtain ⟨isMember, others⟩ := List.forall_mem_cons.mp members
    obtain ⟨isSmall, smaller⟩ := List.forall_mem_cons.mp seeds
    obtain ⟨decoded, length⟩ := ih others smaller
    obtain ⟨i, found⟩ := List.mem_iff_getElem?.mp isMember
    obtain ⟨a, b, c, bytes, value⟩ := seed_bytes isSmall
    have below : i < 256 := (List.getElem?_eq_some_iff.mp found).1.trans_le small
    have wire : srv.setMessagePeers (peer :: peers) =
        UInt8.ofNat i :: [a, b, c] ++ srv.setMessagePeers peers := by
      simp [setMessagePeers, index i _ found, bytes]
    constructor
    · have place : (UInt8.ofNat i).toNat = i := UInt8.toNat_ofNat_of_lt' below
      rw [wire, decodePeers_append, decoded, decodePeer, place, found, value]
    · rw [wire]
      simp only [List.cons_append, List.nil_append, List.length_cons, length]
      omega

end MpcDistributor

theorem checkSeeds_drawn {peers : List PeerInfo} (drawn : SeedsDrawn peers) :
    checkSeeds peers [] = .ok () := by
  refine (checkSeeds_ok_iff_table peers).mpr ⟨fun peer member => ?_, drawn.distinct⟩
  have := (drawn.range peer member).2
  omega

theorem ackGPKMpc_of_checkSeeds {cfg : Config} {mpcID : Nat} {peers : List PeerInfo}
    {preSetValue : List MpcValue} (checked : checkSeeds peers [] = .ok ()) :
    (∀ error, ackGPKMpc cfg mpcID peers preSetValue ≠ .err error) ∧
      (0 ≤ cfg.mpcSchnrThr → ∃ ctx, ackGPKMpc cfg mpcID peers preSetValue = .ok ctx) := by
  simp only [ackGPKMpc, checked, Outcome.ok_bind, genCreateGPKMpc]
  by_cases sensible : 0 ≤ cfg.mpcSchnrThr
  · have fits : 0 ≤ cfg.mpcDegree + 1 := by
      rw [Config.mpcDegree]
      omega
    rw [createSkPolyValue_ok fits]
    exact ⟨fun error => by simp, fun _ => ⟨_, rfl⟩⟩
  · have negative : cfg.mpcDegree + 1 < 0 := by
      rw [Config.mpcDegree]
      omega
    rw [createSkPolyValue, if_pos negative]
    exact ⟨fun error => by simp, fun possible => absurd possible sensible⟩

/-- A list of members with seeds that fit is read as it was written. -/
theorem MpcDistributor.getMessagePeers_setMessagePeers {srvA srvB : MpcDistributor}
    (same : srvA.storeManGroup.Perm srvB.storeManGroup) (distinct : srvA.storeManGroup.Nodup)
    (small : srvA.storeManGroup.length ≤ 256) {list : List PeerInfo} (some : list ≠ [])
    (known : ∀ peer ∈ list, peer.peerID ∈ srvA.storeManGroup)
    (seeds : ∀ peer ∈ list, peer.seed < 2 ^ 24) :
    srvB.initStoreManGroup.getMessagePeers (srvA.initStoreManGroup.setMessagePeers list) =
      .some list := by
  have group := initStoreManGroup_congr same
  have sorted : srvA.initStoreManGroup.storeManGroup.Perm srvA.storeManGroup :=
    initStoreManGroup_perm
  obtain ⟨decoded, length⟩ := decodePeers_setMessagePeers (sorted.length_eq.trans_le small)
    (fun i peerID found => lookup_storeManIndex distinct found)
    (fun peer member => sorted.mem_iff.mpr (known peer member)) seeds
  have positive := List.length_pos_iff.mpr some
  rw [getMessagePeers, if_neg (by omega), ← group, decoded]

/-- Two nodes with the same members in any order understand each other's peer lists. A leader
leaves the loop that draws the seeds once it has as many different numbers as peers, and no
follower refuses the list that it has then. -/
theorem peer_lists_survive {srvA srvB : MpcDistributor}
    (same : srvA.storeManGroup.Perm srvB.storeManGroup) (distinct : srvA.storeManGroup.Nodup)
    (small : srvA.storeManGroup.length ≤ 256) {peers : List PeerInfo} (nonempty : peers ≠ [])
    (members : ∀ peer ∈ peers, peer.peerID ∈ srvA.storeManGroup) :
    ((∀ peer ∈ peers, peer.seed < 2 ^ 24) →
      srvB.initStoreManGroup.getMessagePeers (srvA.initStoreManGroup.setMessagePeers peers) =
        some peers) ∧
    ∀ (req : RequestMpcStep) (store : BaseMpcResult) (random : Randomness),
      req.messageType = .mpcGPKLeader →
      ((req.initStep peers store random).isSome ↔ peers.length ≤ random.intn.toFinset.card) ∧
      ∀ result, req.initStep peers store random = some result →
        ∃ drawn, result = .ok (req, drawn) ∧
          drawn.map PeerInfo.peerID = peers.map PeerInfo.peerID ∧
          srvB.initStoreManGroup.getMessagePeers (srvA.initStoreManGroup.setMessagePeers drawn) =
            some drawn ∧
          ∀ cfg mpcID preSetValue, (∀ error, ackGPKMpc cfg mpcID drawn preSetValue ≠ .err error) ∧
            (0 ≤ cfg.mpcSchnrThr → ∃ ctx, ackGPKMpc cfg mpcID drawn preSetValue = .ok ctx) := by
  refine ⟨MpcDistributor.getMessagePeers_setMessagePeers same distinct small nonempty members,
    fun req store random leads => ⟨?_, fun result inits => ?_⟩⟩
  -- the loop ends when there are enough different numbers
  · rw [RequestMpcStep.initStep_isSome_iff]
    exact ⟨fun enough => enough leads, fun enough _ => enough⟩
  · rw [RequestMpcStep.initStep, leads] at inits
    obtain ⟨drawn, left, rfl⟩ := Option.map_eq_some_iff.mp inits
    obtain ⟨ids, seeds, -⟩ := RequestMpcStep.drawSeeds_drawn left
    -- what is drawn is in the range of three bytes, so the list is read as it was written
    refine ⟨drawn, rfl, ids,
      MpcDistributor.getMessagePeers_setMessagePeers same distinct small ?_ ?_ ?_,
      fun cfg mpcID preSetValue => ackGPKMpc_of_checkSeeds (checkSeeds_drawn seeds)⟩
    · rintro rfl
      exact nonempty (List.map_eq_nil_iff.mp ids.symm)
    · intro peer member
      have listed : peer.peerID ∈ peers.map PeerInfo.peerID := ids ▸ List.mem_map_of_mem member
      obtain ⟨other, isPeer, isID⟩ := List.mem_map.mp listed
      exact isID ▸ members other isPeer
    · intro peer member
      have := (seeds.range peer member).2
      omega

namespace PeerSample

def server (group : List NodeID) : MpcDistributor :=
  ⟨1, group, [], [], ⟨[], 2, 1, [], [], []⟩, [], false, []⟩

/-- The number 4 comes twice, so the second peer gets the third number. -/
theorem peer_lists_survive_two :
    (server [2, 1]).initStoreManGroup.getMessagePeers
        ((server [1, 2]).initStoreManGroup.setMessagePeers [⟨2, 6⟩, ⟨1, 5⟩]) =
      some [⟨2, 6⟩, ⟨1, 5⟩] ∧
    (RequestMpcStep.create .mpcGPKLeader).initStep [⟨2, 6⟩, ⟨1, 5⟩] .create ⟨.ok 0, [], [4, 4, 5]⟩ =
      some (.ok (.create .mpcGPKLeader, [⟨2, 5⟩, ⟨1, 6⟩])) ∧
    ∃ ctx, ackGPKMpc ⟨2, 2⟩ 7 [⟨2, 5⟩, ⟨1, 6⟩] [] = .ok ctx := by
  have same : (server [1, 2]).storeManGroup.Perm (server [2, 1]).storeManGroup :=
    List.Perm.swap 2 1 []
  have nonempty : [(⟨2, 6⟩ : PeerInfo), ⟨1, 5⟩] ≠ [] := List.cons_ne_nil _ _
  obtain ⟨survives, draws⟩ := peer_lists_survive same (by decide +kernel) (by decide +kernel)
    nonempty (by decide +kernel)
  have inits : (RequestMpcStep.create .mpcGPKLeader).initStep [⟨2, 6⟩, ⟨1, 5⟩] .create
      ⟨.ok 0, [], [4, 4, 5]⟩ = some (.ok (.create .mpcGPKLeader, [⟨2, 5⟩, ⟨1, 6⟩])) := by
    rfl
  obtain ⟨drawn, isResult, -, -, accepted⟩ := (draws _ _ _ rfl).2 _ inits
  cases isResult
  exact ⟨survives (by decide +kernel), inits, (accepted ⟨2, 2⟩ 7 []).2 (by decide)⟩

end PeerSample
end SchnorrMpc
